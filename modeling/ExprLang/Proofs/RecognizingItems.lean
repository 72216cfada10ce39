import ExprLang.Proofs.ReadingItems
import ExprLang.Proofs.RecognizingStatements

/-!
# Units Are Recognized

The items of a derived unit are recognized one after the other, each in front of the next.
-/

namespace ExprLang

namespace Parser

variable {parser : Parser} {rest : List Symbol}

namespace Recognizes

theorem parameterNames (others : List String) (h : parser.Ready) :
    parser.Recognizes (Parser.afterCommas (Parser.expectIdentifier "identifier")) others
      (others.flatMap fun other ↦ [.char ',', .name other]) ([.char ')'] ++ rest) True := by
  induction others generalizing parser with
  | nil => exact afterCommas_nil h Reads.progresses_afterComma_name ⟨_, _, rfl, by simp⟩
  | cons other others ih =>
    exact (afterCommas_cons h Reads.progresses_afterComma_name (fun _ h' ↦ name h' _ _)
      fun _ h' ↦ ih h').congr (iff_of_eq (and_true _))

theorem parameters (names : List String) (h : parser.Ready) :
    parser.Recognizes Parser.parameters names (parameterSymbols names) ([.char ')'] ++ rest)
      True := by
  cases names with
  | nil =>
    refine of_head rfl fun hsymbol ↦ get ?_
    rw [if_pos (Token.isChar_iff.mpr (congrArg Symbol.kind hsymbol))]
    exact pure
  | cons first others =>
    refine of_head rfl fun hsymbol ↦ get ?_
    have hclosing : ¬ parser.current.isChar ')' := by
      have hkind : parser.current.kind = .identifier := congrArg Symbol.kind hsymbol
      rw [Token.isChar_iff, hkind]
      simp
    rw [if_neg hclosing]
    apply (name h _ _).bind_symbol
    exact (parameterNames others (h.skip 1)).bind_last pure

theorem prototype (prototype : Prototype) (h : parser.Ready) :
    parser.Recognizes Parser.prototype prototype prototype.symbols rest True := by
  rw [prototype_eq]
  refine (name h _ _).bind_symbol ((char '(' _).bind_symbol ?_)
  refine ((parameters prototype.parameters ((h.skip 1).skip 1)).bind fun _ _ ↦ ?_).congr
    (iff_of_eq (and_true _))
  exact (expectAs rfl).bind_last pure

theorem keyword (keyword : Keyword) (rest : List Symbol) :
    parser.Recognizes (Functor.discard (expect (.keyword keyword))) () [.keyword keyword] rest
      True :=
  expectAs (Symbol.keyword_kind keyword)

theorem separator (h : parser.current.symbol = .char ';') (rest : List Symbol) :
    parser.Recognizes Parser.item (some .separator) [.char ';'] rest True := by
  have hkind : parser.current.kind = .char ';' := congrArg Symbol.kind h
  apply get
  rw [hkind]
  exact (discard_advance h rest).bind_last pure

theorem declaration (prototype : Prototype) (h : parser.Ready)
    (hsymbol : parser.current.symbol = .keyword .declaration) (rest : List Symbol) :
    parser.Recognizes Parser.item (some (.declaration prototype))
      (.keyword .declaration :: (prototype.symbols ++ [.char ';'])) rest True := by
  have hkind : parser.current.kind = .keyword .declaration := congrArg Symbol.kind hsymbol
  have hstep : parser.Recognizes Parser.declaration prototype
      (.keyword .declaration :: (prototype.symbols ++ [.char ';'])) rest True :=
    (keyword .declaration _).bind_symbol
      (closed ';' (Recognizes.prototype prototype (h.skip 1)) fun _ ↦ pure)
  apply get
  rw [hkind]
  exact hstep.bind_last pure

theorem definition {prototype : Prototype} {body : Block} {depth : Nat} {word : List Symbol}
    (hbody : RecognizesBlock depth body word) (h : parser.Ready)
    (hsymbol : parser.current.symbol = .keyword .definition) (rest : List Symbol) :
    parser.Recognizes Parser.item (some (.definition ⟨prototype, body⟩))
      (.keyword .definition :: (prototype.symbols ++ word)) rest (depth ≤ parser.room) := by
  have hkind : parser.current.kind = .keyword .definition := congrArg Symbol.kind hsymbol
  have hblock (n : Nat) : (parser.skip n).Recognizes Parser.block body word rest
      (depth ≤ parser.room) := by
    apply of_apply (block_apply _)
    rw [skip_room]
    exact hbody parser.room _ rest (h.skip n)
  have hstep : parser.Recognizes Parser.definition ⟨prototype, body⟩
      (.keyword .definition :: (prototype.symbols ++ word)) rest (depth ≤ parser.room) := by
    apply (keyword .definition _).bind_symbol
    refine ((Recognizes.prototype prototype (h.skip 1)).bind fun _ _ ↦ ?_).congr
      (iff_of_eq (true_and _))
    rw [skip_skip]
    exact (hblock _).bind_last pure
  apply get
  rw [hkind]
  exact hstep.bind_last pure

theorem run {body : Block} {depth : Nat} {word : List Symbol}
    (hbody : RecognizesStatements depth body word) (hne : body ≠ [])
    (hstart : ∃ first tail, word = first :: tail ∧ startsStatement first.kind) (h : parser.Ready)
    (hrest : StartsWith (fun kind ↦ isCloser kind ∨ startsDeclaration kind) rest) :
    parser.Recognizes Parser.item (some (.run body)) word rest (depth + 1 ≤ parser.room) := by
  have hlist : parser.Recognizes Parser.statements body word rest (depth + 1 ≤ parser.room) := by
    apply of_apply (rfl : _ = statementsWithin parser.room parser)
    cases parser.room with
    | zero => exact tooDeep (by omega)
    | succ levels =>
      rw [Nat.succ_le_succ_iff]
      exact hbody levels parser rest h hrest fun hnil ↦ absurd hnil hne
  have hstep : parser.Recognizes Parser.run body word rest (depth + 1 ≤ parser.room) := by
    apply hlist.bind_last
    rw [if_neg (by simpa using hne)]
    exact pure
  obtain ⟨first, tail, rfl, hfirst⟩ := hstart
  apply of_head rfl
  intro hsymbol
  rw [← hsymbol] at hfirst
  exact of_apply (item_of_not_endsRun (endsRun_of_startsStatement hfirst)) hstep.map

theorem many_item_nil (h : parser.Ready) (rest : List Symbol) :
    parser.Recognizes (Parser.many Parser.item) [] [] (.endOfInput :: rest) True := by
  refine many_nil Reads.progresses_item h (of_head rfl fun hsymbol ↦ get ?_)
  have hkind : parser.current.kind = .endOfInput := congrArg Symbol.kind hsymbol
  rw [hkind]
  exact pure

end Recognizes

end Parser

theorem startsWith_of_endsRun {word : List Symbol}
    (h : StartsWith (fun kind ↦ endsRun kind) word) :
    StartsWith (fun kind ↦ Parser.isCloser kind ∨ Parser.startsDeclaration kind) word := by
  obtain ⟨symbol, tail, rfl, hkind⟩ := h
  refine ⟨symbol, tail, rfl, ?_⟩
  rw [endsRun_iff] at hkind
  rcases hkind with hkind | hkind | hkind | hkind <;>
    simp [hkind, Parser.isCloser_iff, Parser.startsDeclaration_iff]

/-- A run goes on as long as it can; every other item shows where it ends. -/
def Item.MayPrecede (rest : List Symbol) : Item → Prop
  | .run _ => StartsWith (fun kind ↦ endsRun kind) rest
  | _ => True

/-- The item is recognized in front of everything that it may precede. -/
def RecognizedItem (depth : Nat) (item : Item) (word : List Symbol) : Prop :=
  ∀ (parser : Parser) (rest : List Symbol), parser.Ready → item.MayPrecede rest →
    parser.Recognizes Parser.item (some item) word rest (depth ≤ parser.room)

namespace RecognizedItem

theorem separator : RecognizedItem 0 .separator [.char ';'] :=
  fun _ rest _ _ ↦ Parser.Recognizes.of_head rfl fun hsymbol ↦
    (Parser.Recognizes.separator hsymbol rest).congr (iff_of_true trivial (Nat.zero_le _))

theorem declaration (prototype : Prototype) : RecognizedItem 0 (.declaration prototype)
    (.keyword .declaration :: (prototype.symbols ++ [.char ';'])) :=
  fun _ rest h _ ↦ Parser.Recognizes.of_head rfl fun hsymbol ↦
    (Parser.Recognizes.declaration prototype h hsymbol rest).congr
      (iff_of_true trivial (Nat.zero_le _))

theorem definition (prototype : Prototype) {body : Block} {depth : Nat} {word : List Symbol}
    (h : Derives depth (.block body) word) : RecognizedItem depth (.definition ⟨prototype, body⟩)
      (.keyword .definition :: (prototype.symbols ++ word)) :=
  fun _ rest hready _ ↦ Parser.Recognizes.of_head rfl fun hsymbol ↦
    .definition h.recognized hready hsymbol rest

theorem run {body : Block} {depth : Nat} {word : List Symbol} (hne : body ≠ [])
    (h : Derives depth (.statements body) word) : RecognizedItem (depth + 1) (.run body) word := by
  intro parser rest hready hrest
  have hstart := (startsStatement_of_derives h).resolve_left fun hnil ↦ hne hnil.1
  exact .run h.recognized hne hstart hready (startsWith_of_endsRun hrest)

end RecognizedItem

/-- Items one after the other up to the end of input, each in front of the others. -/
inductive RecognizedItems : Nat → List Item → List Symbol → Prop
  | nil : RecognizedItems 0 [] []
  | cons {depth depth' : Nat} {item : Item} {items : List Item} {word word' : List Symbol} :
      RecognizedItem depth item word → item.MayPrecede (word' ++ [.endOfInput]) →
      RecognizedItems depth' items word' →
      RecognizedItems (max depth depth') (item :: items) (word ++ word')

/-- An item may precede whatever ends a run, if it may precede the end of input. -/
theorem Item.MayPrecede.replace_end {item : Item} {front tail : List Symbol} {symbol : Symbol}
    (h : item.MayPrecede (front ++ [.endOfInput])) (hends : endsRun symbol.kind) :
    item.MayPrecede (front ++ symbol :: tail) := by
  cases item with
  | run body =>
    cases front with
    | nil => exact ⟨symbol, tail, rfl, hends⟩
    | cons first others =>
      obtain ⟨_, _, heq, hfirst⟩ := h
      obtain ⟨rfl, rfl⟩ := List.cons.inj heq
      exact ⟨first, _, rfl, hfirst⟩
  | _ => trivial

theorem RecognizedItems.recognizes {depth : Nat} {items : List Item} {front : List Symbol}
    (h : RecognizedItems depth items front) {parser : Parser} (hready : parser.Ready) :
    parser.Recognizes (Parser.many Parser.item) items front [.endOfInput]
      (depth ≤ parser.room) := by
  induction h generalizing parser with
  | nil =>
    exact (Parser.Recognizes.many_item_nil hready []).congr (iff_of_true trivial (Nat.zero_le _))
  | @cons depth depth' item items word word' hitem hprecedes _ ih =>
    rw [max_le_iff]
    apply Parser.Recognizes.many_cons Parser.Reads.progresses_item hready
      (hitem parser _ hready hprecedes)
    intro _
    have hrest := ih (hready.skip word.length)
    rwa [Parser.skip_room] at hrest

/-- The items of a unit, each of which is recognized in front of the others. -/
def RecognizedUnit (options : Options) (depth : Nat) (prototypes : List Prototype)
    (definitions : List Definition) (word : List Symbol) : Prop :=
  ∃ items front, word = front ++ [.endOfInput] ∧ items.filterMap Item.prototype? = prototypes ∧
    items.filterMap (Item.definition? options) = definitions ∧ RecognizedItems depth items front

theorem RecognizedUnit.cons {options : Options} {item : Item} {depth depth' : Nat}
    {prototypes : List Prototype} {definitions : List Definition} {word word' : List Symbol}
    (hitem : RecognizedItem depth item word) (hprecedes : item.MayPrecede word')
    (h : RecognizedUnit options depth' prototypes definitions word') :
    RecognizedUnit options (max depth depth') (item.prototype?.toList ++ prototypes)
      ((item.definition? options).toList ++ definitions) (word ++ word') := by
  obtain ⟨items, front, rfl, rfl, rfl, hitems⟩ := h
  refine ⟨item :: items, word ++ front, (List.append_assoc _ _ _).symm, ?_, ?_,
    .cons hitem hprecedes hitems⟩
  · cases item <;> rfl
  · cases item <;> rfl

theorem DerivesUnit.ne_nil {anonymous : String} {depth : Nat} {prototypes : List Prototype}
    {definitions : List Definition} {word : List Symbol}
    (h : DerivesUnit anonymous depth prototypes definitions word) : word ≠ [] := by
  obtain ⟨front, rfl, -⟩ := h.exists_proper
  simp

theorem DerivesUnit.recognized {options : Options} {depth : Nat} {prototypes : List Prototype}
    {definitions : List Definition} {word : List Symbol}
    (h : DerivesUnit options.anonymousName depth prototypes definitions word) :
    RecognizedUnit options depth prototypes definitions word := by
  induction h with
  | finish => exact ⟨[], [], rfl, rfl, rfl, .nil⟩
  | separator _ ih =>
    have hcons := ih.cons .separator trivial
    rwa [Nat.zero_max] at hcons
  | @declaration _ prototype _ _ _ _ _ ih =>
    have hcons := ih.cons (.declaration prototype) trivial
    simpa [Item.prototype?, Item.definition?] using hcons
  | @definition _ _ prototype _ _ _ _ _ _ hbody _ ih =>
    have hcons := ih.cons (.definition prototype hbody) trivial
    simpa [Item.prototype?, Item.definition?] using hcons
  | @run _ _ body _ _ _ word' hne hbody hunit hends ih =>
    have hprecedes : (Item.run body).MayPrecede word' := by
      obtain ⟨symbol, tail, rfl⟩ := List.exists_cons_of_ne_nil hunit.ne_nil
      exact ⟨symbol, tail, rfl, hends symbol rfl⟩
    exact ih.cons (.run hne hbody) hprecedes

end ExprLang
