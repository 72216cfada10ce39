import ExprLang.Proofs.ReadingStatements

/-!
# Reading Items Reads the Grammar

A source is read item by item.  A run of statements goes on as long as statements follow, which is
why the next item starts with a token that ends a run.
-/

namespace ExprLang

def SpellsDefinition (definition : Definition) (word : List Symbol) : Prop :=
  definition.prototype.IsNamed ∧ ∃ rest, Spells (.block definition.body) rest ∧
    word = .keyword .definition :: (definition.prototype.symbols ++ rest)

/-- The symbols of an item by itself. -/
def SpellsItem : Item → List Symbol → Prop
  | .separator, word => word = [.char ';']
  | .declaration prototype, word => prototype.IsNamed ∧
      word = .keyword .declaration :: (prototype.symbols ++ [.char ';'])
  | .definition definition, word => SpellsDefinition definition word
  | .run body, word => body ≠ [] ∧ Spells (.statements body) word

/-- The symbols of the items that make a unit, with the end of input. -/
def SpellsUnit (options : Options) (items : List Item) (word : List Symbol) : Prop :=
  ∃ depth, DerivesUnit options.anonymousName depth (items.filterMap Item.prototype?)
    (items.filterMap (Item.definition? options)) word

def Item.isRun : Item → Bool
  | .run _ => true
  | _ => false

variable {options : Options}

theorem spellsUnit_nil : SpellsUnit options [] [.endOfInput] := ⟨0, .finish⟩

theorem SpellsUnit.cons {item : Item} {items : List Item} {word word' : List Symbol}
    (hitem : SpellsItem item word) (hitems : SpellsUnit options items word')
    (hrun : item.isRun → ∀ symbol ∈ word'.head?, endsRun symbol.kind) :
    SpellsUnit options (item :: items) (word ++ word') := by
  obtain ⟨depth, hitems⟩ := hitems
  cases item with
  | separator =>
    obtain rfl := hitem
    exact ⟨depth, .separator hitems⟩
  | declaration prototype =>
    obtain ⟨hnamed, rfl⟩ := hitem
    have hunit := DerivesUnit.declaration hnamed hitems
    exact ⟨depth, by simpa [List.filterMap_cons, Item.prototype?, Item.definition?] using hunit⟩
  | definition definition =>
    obtain ⟨hnamed, rest, ⟨depth', hbody⟩, rfl⟩ := hitem
    have hunit := DerivesUnit.definition hnamed hbody hitems
    exact ⟨_, by simpa [List.filterMap_cons, Item.prototype?, Item.definition?] using hunit⟩
  | run body =>
    obtain ⟨hne, depth', hbody⟩ := hitem
    exact ⟨_, .run hne hbody hitems (hrun rfl)⟩

theorem eq_nil_of_spells {word : List Symbol} (h : Spells (.statements []) word) : word = [] := by
  obtain ⟨depth, h⟩ := h
  cases h
  rfl

theorem startsStatement_of_spells {body : Block} {word : List Symbol}
    (h : Spells (.statements body) word) (hne : body ≠ []) :
    ∃ symbol rest, word = symbol :: rest ∧ startsStatement symbol.kind := by
  obtain ⟨depth, h⟩ := h
  cases h with
  | noStatement => simp at hne
  | statements hstmt =>
    obtain ⟨first, rest, rfl, hfirst⟩ := hstmt.startsRight
    exact ⟨first, _, rfl, hfirst⟩

theorem endsRun_of_startsStatement {kind : TokenKind} (h : startsStatement kind) :
    endsRun kind = false := by
  rw [startsStatement_iff, startsExpression_iff] at h
  rcases h with (rfl | rfl | rfl) | rfl | rfl | rfl <;> rfl

theorem endsRun_of_head {kind : TokenKind} (h : endsRun kind ∨ startsStatement kind)
    (hstops : Parser.isCloser kind ∨ Parser.startsDeclaration kind) : endsRun kind := by
  apply h.elim id
  intro hstart
  rw [Parser.isCloser_iff, Parser.startsDeclaration_iff] at hstops
  rcases hstops with (rfl | rfl | rfl | rfl) | rfl | rfl <;>
    simp [startsStatement_iff, startsExpression_iff] at hstart ⊢

/-- An item starts with a token that ends a run or that starts a statement. -/
theorem SpellsItem.head {item : Item} {word : List Symbol} (h : SpellsItem item word) :
    ∃ symbol rest, word = symbol :: rest ∧ symbol.kind ≠ .endOfInput ∧
      (endsRun symbol.kind ∨ startsStatement symbol.kind) := by
  cases item with
  | separator => exact ⟨_, [], h, by simp, .inl rfl⟩
  | declaration => exact ⟨_, _, h.2, by simp, .inl rfl⟩
  | definition =>
    obtain ⟨-, rest, -, rfl⟩ := h
    exact ⟨_, _, rfl, by simp, .inl rfl⟩
  | run body =>
    obtain ⟨symbol, rest, rfl, hstart⟩ := startsStatement_of_spells h.2 h.1
    refine ⟨symbol, rest, rfl, ?_, .inr hstart⟩
    intro hend
    simp [hend, startsStatement_iff, startsExpression_iff] at hstart

theorem SpellsItem.terminal {item : Item} {word : List Symbol} (h : SpellsItem item word) :
    ∀ symbol ∈ word, symbol.Terminal := by
  cases item with
  | separator =>
    rw [h, List.forall_mem_singleton]
    exact .char (by decide)
  | declaration prototype =>
    obtain ⟨hnamed, rfl⟩ := h
    simp only [List.forall_mem_cons, List.forall_mem_append]
    exact ⟨by simp, hnamed.terminal, by simp⟩
  | definition definition =>
    obtain ⟨hnamed, rest, ⟨depth, hbody⟩, rfl⟩ := h
    simp only [List.forall_mem_cons, List.forall_mem_append]
    exact ⟨by simp, hnamed.terminal, hbody.terminal⟩
  | run body =>
    obtain ⟨-, depth, hbody⟩ := h
    exact hbody.terminal

theorem viable_named : Viable (fun prototype word ↦
    Prototype.IsNamed prototype ∧ word = prototype.symbols) [] :=
  ⟨⟨"x", []⟩, _, ⟨Parser.Reads.isName_x, by simp⟩, rfl⟩

/-- The names between the parentheses of the head of a function. -/
def SpellsParameters (parameters : List String) (word : List Symbol) : Prop :=
  (∀ parameter ∈ parameters, IsName parameter) ∧ word = parameterSymbols parameters

def SpellsParameter (parameter : String) (word : List Symbol) : Prop :=
  IsName parameter ∧ word = [.name parameter]

namespace Parser

variable {parser : Parser} {bound : Nat}

def parameters : Step (List String) := do
  if (← get).current.isChar ')' then pure []
  else do
    let first ← expectIdentifier "identifier"
    let others ← afterCommas (expectIdentifier "identifier")
    pure (first :: others)

theorem prototype_eq : prototype = (do
    let name ← expectIdentifier "function name"
    discard (expectChar '(')
    let parameters ← parameters
    discard (expectAs (.char ')') "')' or ','")
    pure ⟨name, parameters⟩) := by
  unfold prototype parameters
  refine bind_congr fun name ↦ bind_congr fun _ ↦ ?_
  rw [bind_assoc]
  apply bind_congr
  intro parser
  split <;> simp

instance Skips.parameters : Skips Parser.parameters := by
  unfold Parser.parameters
  infer_instance

namespace Reads

theorem progresses_afterComma_name :
    Progresses (Parser.afterComma (Parser.expectIdentifier "identifier")) :=
  progresses_afterComma (⟨"x", [.name "x"], isName_x, rfl⟩ : Viable SpellsParameter [])
    fun _ h ↦ expectIdentifier h _ 0

theorem parameters (h : parser.Ready) :
    parser.Reads Parser.parameters SpellsParameters bound := by
  apply get
  split
  · exact pure ⟨by simp, rfl⟩
  · refine (expectIdentifier h _ bound).bind ?_ ?_
    · rintro first word ⟨hfirst, rfl⟩
      exact ⟨[first], [], by simpa using hfirst, rfl⟩
    · rintro first n ⟨hfirst, hword⟩
      have hspells {others : List String} {word : List Symbol}
          (hchain : Chain (SpellsAfterComma SpellsParameter) others word) :
          SpellsParameters (first :: others) (.name first :: word) := by
        refine ⟨List.forall_mem_cons.mpr ⟨hfirst, hchain.forall_mem ?_⟩, ?_⟩
        · rintro other word ⟨rest, rfl, hother, -⟩
          exact hother
        · rw [parameterSymbols, hchain.eq_flatMap]
          rintro other word ⟨rest, rfl, -, rfl⟩
          rfl
      rw [hword]
      have hothers : (parser.skip n).Reads
          (Parser.afterCommas (Parser.expectIdentifier "identifier"))
          (Chain (SpellsAfterComma SpellsParameter)) bound :=
        afterCommas (h.skip n) ⟨"x", [.name "x"], isName_x, rfl⟩ fun m ↦
          expectIdentifier ((h.skip n).skip m) _ bound
      refine hothers.bind ?_ ?_
      · exact fun others word hothers ↦ ⟨_, [], by simpa using hspells hothers⟩
      · exact fun others m hothers ↦ pure (by simpa using hspells hothers)

theorem prototype (h : parser.Ready) : parser.Reads Parser.prototype
    (fun prototype word ↦ prototype.IsNamed ∧ word = prototype.symbols) bound := by
  have hspells {name : String} {parameters : List String} {word : List Symbol} (hname : IsName name)
      (hparameters : SpellsParameters parameters word) :
      Prototype.IsNamed ⟨name, parameters⟩ ∧
        .name name :: .char '(' :: (word ++ [.char ')']) = Prototype.symbols ⟨name, parameters⟩ :=
    ⟨⟨hname, hparameters.1⟩, by rw [hparameters.2]; rfl⟩
  have hnone : SpellsParameters [] [] := ⟨by simp, rfl⟩
  rw [prototype_eq]
  refine (expectIdentifier h _ bound).bind ?_ ?_
  · rintro name word ⟨hname, rfl⟩
    exact ⟨_, _, hspells hname hnone⟩
  rintro name n ⟨hname, hword⟩
  rw [hword]
  apply (expectChar (h.skip n) '(' bound).bind_word ⟨_, _, hspells hname hnone⟩
  intro _ m _
  refine (parameters ((h.skip n).skip m)).bind ?_ ?_
  · exact fun parameters word hparameters ↦ ⟨_, _, hspells hname hparameters⟩
  · intro parameters k hparameters
    refine (expectClosing (((h.skip n).skip m).skip k) bound).bind_word ?_ fun _ _ _ ↦ ?_
    · exact ⟨_, [], by simpa using hspells hname hparameters⟩
    · exact pure (by simpa using hspells hname hparameters)

theorem declaration (h : parser.Ready) :
    parser.Reads Parser.declaration
      (fun prototype word ↦ SpellsItem (.declaration prototype) word) bound := by
  refine (expectKeyword h .declaration bound).bind_word ?_ fun _ n _ ↦ ?_
  · obtain ⟨prototype, word, hnamed, rfl⟩ := viable_named
    exact ⟨prototype, _, hnamed, rfl⟩
  · apply (prototype (h.skip n)).closed (h.skip n) ';'
    rintro prototype word ⟨hnamed, rfl⟩
    exact ⟨prototype, rfl, hnamed, rfl⟩

theorem definition (h : parser.Ready) (hbound : bound ≤ parser.taken + parser.room) :
    parser.Reads Parser.definition SpellsDefinition bound := by
  refine (expectKeyword h .definition bound).bind_word ?_ fun _ n _ ↦ ?_
  · obtain ⟨prototype, word, hnamed, rfl⟩ := viable_named
    obtain ⟨body, word', hbody⟩ := viable_block
    exact ⟨⟨prototype, body⟩, _, hnamed, _, hbody, rfl⟩
  · refine (prototype (h.skip n)).bind ?_ ?_
    · rintro prototype word ⟨hnamed, rfl⟩
      obtain ⟨body, word, hbody⟩ := viable_block
      exact ⟨⟨prototype, body⟩, word, hnamed, word, hbody, rfl⟩
    · rintro prototype m ⟨hnamed, hword⟩
      rw [hword]
      have hblock : ((parser.skip n).skip m).Reads block (fun body ↦ Spells (.block body))
          bound := by
        apply of_apply (block_apply _)
        apply blockWith (readsStatements_statementsWithin _) ((h.skip n).skip m)
        simp only [skip_taken, skip_room]
        omega
      refine hblock.bind ?_ ?_
      · exact fun body word hbody ↦ ⟨⟨prototype, body⟩, [], hnamed, word, hbody, by simp⟩
      · exact fun body k hbody ↦ pure ⟨hnamed, _, hbody, by simp⟩

/-- A run is not empty. -/
theorem run (h : parser.Ready) (hbound : bound ≤ parser.taken + (parser.room - 1)) :
    parser.Reads Parser.run (fun body word ↦ SpellsItem (.run body) word) bound := by
  have hviable : Viable (fun body word ↦ SpellsItem (.run body) word) [] := by
    refine viable_statement.extend fun stmt word hstmt ↦ ⟨[stmt], [], by simp, ?_⟩
    simpa using spells_statements (.singleton hstmt)
  have hstatements : parser.Reads statements (fun body ↦ Spells (.statements body)) bound :=
    of_apply rfl (readsStatements_statementsWithin parser.room parser bound h hbound)
  refine hstatements.bind ?_ ?_
  · intro body word hbody
    cases body with
    | nil => rwa [eq_nil_of_spells hbody]
    | cons stmt body => exact ⟨stmt :: body, [], by simp, by simpa using hbody⟩
  · intro body n hbody
    cases body with
    | nil =>
      rw [eq_nil_of_spells hbody]
      exact unexpected hviable
    | cons stmt body => exact pure ⟨by simp, by simpa using hbody⟩

theorem item (h : parser.Ready) (hbound : bound ≤ parser.taken + (parser.room - 1)) :
    parser.Reads Parser.item (Maybe (parser.current.kind = .endOfInput) SpellsItem) bound := by
  apply get
  split
  · next hkind => exact pure ⟨hkind, rfl⟩
  · next hkind =>
    exact (takeChar h hkind bound).bind_word ⟨some .separator, [], rfl⟩ fun _ _ _ ↦ pure rfl
  · apply (declaration h).map
    exact fun prototype word hword ↦ hword
  · apply (definition h (by omega)).map
    exact fun definition word hword ↦ hword
  · apply (run h hbound).map
    exact fun body word hword ↦ hword

theorem progresses_item : Progresses Parser.item := by
  refine progresses _ (fun parser h ↦ item h (Nat.zero_le _)) ?_
  intro item word hitem
  obtain ⟨symbol, rest, hword, hkind, -⟩ := hitem.head
  exact ⟨symbol, rest, hword, hkind⟩

end Reads

theorem run_stops (h : parser.Ready) {body : Block} {parser' : Parser}
    (heq : run parser = .ok body parser') :
    isCloser parser'.current.kind ∨ startsDeclaration parser'.current.kind := by
  obtain ⟨body', middle, hstatements, hrest⟩ := exists_of_bind_ok heq
  have hstops := statementsWithin_stops h hstatements
  cases body' with
  | nil => cases hrest
  | cons stmt body' =>
    obtain ⟨-, rfl⟩ := EStateM.Result.ok.inj hrest
    exact hstops

theorem item_of_not_endsRun {parser : Parser} (h : endsRun parser.current.kind = false) :
    item parser = ((fun body ↦ some (Item.run body)) <$> run) parser := by
  rw [item, get_bind_apply]
  rw [← Bool.not_eq_true, endsRun_iff] at h
  refine congrFun ?_ parser
  split <;> first | rfl | simp_all

/-- After a run the current token closes something or starts a declaration. -/
theorem item_stops (h : parser.Ready) {item : Item} {parser' : Parser}
    (heq : Parser.item parser = .ok (some item) parser') (hrun : item.isRun) :
    isCloser parser'.current.kind ∨ startsDeclaration parser'.current.kind := by
  cases item with
  | run body =>
    obtain ⟨n, -, hbody⟩ := (Reads.item h (Nat.zero_le _)).exists_of_ok heq
    obtain ⟨symbol, rest, hword, hstart⟩ := startsStatement_of_spells hbody.2 hbody.1
    cases n with
    | zero => cases hword
    | succ n =>
      obtain ⟨rfl, -⟩ := List.cons.inj hword
      rw [item_of_not_endsRun (endsRun_of_startsStatement hstart)] at heq
      obtain ⟨body', hrun', -⟩ := exists_of_map_ok heq
      exact run_stops h hrun'
  | _ => cases hrun

/-! ## Units -/

/-- After a run the next token must end the run. -/
def HeadEnds (run : Prop) (word : List Symbol) : Prop :=
  run → ∀ symbol ∈ word.head?, endsRun symbol.kind

/-- Where nothing of a run is left to read, the first token of an item ends the run. -/
theorem headEnds_of_spellsItem {run : Prop}
    (hrun : run → isCloser parser.current.kind ∨ startsDeclaration parser.current.kind)
    {item : Item} {n : Nat} {word : List Symbol} (hitem : SpellsItem item (parser.ahead n ++ word))
    (hn : n ≠ 0) (rest : List Symbol) : HeadEnds run (parser.ahead n ++ rest) := by
  obtain ⟨n, rfl⟩ := Nat.exists_eq_succ_of_ne_zero hn
  obtain ⟨symbol, word', hword, -, hkind⟩ := hitem.head
  rw [ahead_succ, List.cons_append] at hword ⊢
  obtain ⟨rfl, -⟩ := List.cons.inj hword
  intro hafter symbol hsymbol
  obtain rfl : parser.current.symbol = symbol := by simpa using hsymbol
  exact endsRun_of_head hkind (hrun hafter)

theorem Reads.items (options : Options) {run : Prop} (h : parser.Ready)
    (hbound : bound ≤ parser.taken + (parser.room - 1))
    (hrun : run → isCloser parser.current.kind ∨ startsDeclaration parser.current.kind) :
    parser.Reads (Parser.many Parser.item) (fun items word ↦
      SpellsUnit options items (word ++ [.endOfInput]) ∧ HeadEnds run (word ++ [.endOfInput]))
      bound := by
  induction hsize : parser.size using Nat.strong_induction_on generalizing parser run with
  | _ size ih =>
    apply of_apply (progresses_item.many_eq h)
    refine (item h hbound).bind_of_eq ?_ ?_
    · rintro n ⟨result, rest, hresult⟩
      by_cases hn : n = 0
      · rw [hn]
        exact ⟨[], [], spellsUnit_nil, by simp [HeadEnds, endsRun_iff]⟩
      · cases result with
        | none =>
          have hnil : parser.ahead n = [] := (List.append_eq_nil_iff.mp hresult.2).1
          exact absurd (length_of_ahead_eq hnil) hn
        | some item =>
          have hunit : SpellsUnit options [item] _ :=
            .cons hresult spellsUnit_nil (by simp [endsRun_iff])
          have hends := headEnds_of_spellsItem hrun hresult hn (rest ++ [.endOfInput])
          exact ⟨[item], rest, hunit, by simpa using hends⟩
    · intro result n heq hresult
      cases result with
      | none =>
        apply pure
        rw [hresult.2]
        exact ⟨spellsUnit_nil, by simp [HeadEnds, endsRun_iff]⟩
      | some item =>
        obtain ⟨hready', hlt⟩ := progresses_item parser item _ h heq
        refine (ih _ (hsize ▸ hlt) hready' ?_ (item_stops h heq) rfl).map ?_
        · simp only [skip_taken, skip_room]
          omega
        · rintro items word ⟨hunit, hends⟩
          have hitem : SpellsItem item (parser.ahead n) := hresult
          have hn : n ≠ 0 := by
            rintro rfl
            obtain ⟨symbol, rest, hword, -⟩ := hitem.head
            cases hword
          refine ⟨by simpa using SpellsUnit.cons hitem hunit hends, ?_⟩
          rw [List.append_assoc]
          rw [← List.append_nil (parser.ahead n)] at hitem
          exact headEnds_of_spellsItem hrun hitem hn _

end Parser

end ExprLang
