import ExprLang.Proofs.MirroringStatements
import ExprLang.Proofs.ReadingItems

/-!
# Items Side by Side

The items of twins mirror each other, and so do the lists of their items.
-/

namespace ExprLang.Parser

variable {naming : String → String} {parser twin : Parser}

theorem Twins.keeps (h : parser.Twins naming twin) : parser.Keeps twin parser.room twin.room := by
  have hroom := h.room_le
  unfold Keeps
  omega

namespace Mirrors

theorem parameters (h : parser.Twins naming twin) :
    parser.Mirrors twin (List.map naming) Parser.parameters Parser.parameters := by
  refine get (ite (by rw [h.isChar_eq]) (fun _ ↦ pure rfl) fun _ ↦ ?_)
  apply (expectIdentifier h _).bind
  intro first n _ _
  have hothers := afterCommas Reads.progresses_afterComma_name Reads.progresses_afterComma_name
    (h.skip n) fun m ↦ expectIdentifier ((h.skip n).skip m) _
  exact hothers.bind fun others _ _ _ ↦ pure rfl

theorem prototype (h : parser.Twins naming twin) :
    parser.Mirrors twin (Prototype.rename naming) Parser.prototype Parser.prototype := by
  rw [prototype_eq]
  apply (expectIdentifier h _).bind_closed h '('
  intro name n
  apply (parameters (h.skip n)).bind
  intro names m _ _
  exact (expectAs ((h.skip n).skip m) _ _).bind fun _ _ _ _ ↦ pure rfl

theorem declaration (h : parser.Twins naming twin) :
    parser.Mirrors twin (Prototype.rename naming) Parser.declaration Parser.declaration := by
  apply (expectAs h _ _).bind
  intro _ n _ _
  exact (prototype (h.skip n)).bind_closed (h.skip n) ';' fun _ _ ↦ pure rfl

theorem block (h : parser.Twins naming twin) :
    parser.Mirrors twin (Block.rename naming) Parser.block Parser.block :=
  (blockWith h (mirrorsStatements h h.keeps)).of_apply (block_apply parser) (block_apply twin)

theorem definition (h : parser.Twins naming twin) :
    parser.Mirrors twin (Definition.rename naming) Parser.definition Parser.definition := by
  apply (expectAs h _ _).bind
  intro _ n _ _
  apply (prototype (h.skip n)).bind
  intro prototype m _ _
  exact (block ((h.skip n).skip m)).bind fun body _ _ _ ↦ pure rfl

theorem run (h : parser.Twins naming twin) :
    parser.Mirrors twin (Block.rename naming) Parser.run Parser.run := by
  have hstatements : parser.Mirrors twin (Block.rename naming) statements statements :=
    (mirrorsStatements h h.keeps 0).of_apply rfl rfl
  apply hstatements.bind
  intro body n _ _
  cases body with
  | nil => exact unexpected _
  | cons stmt body => exact pure rfl

theorem item (h : parser.Twins naming twin) :
    parser.Mirrors twin (Option.map (Item.rename naming)) Parser.item Parser.item := by
  apply get
  rw [h.kind_eq]
  split
  · exact pure rfl
  · exact (advance h).bind fun _ _ _ _ ↦ pure rfl
  · exact (declaration h).map fun _ ↦ rfl
  · exact (definition h).map fun _ ↦ rfl
  · exact (run h).map fun _ ↦ rfl

theorem items (h : parser.Twins naming twin) :
    parser.Mirrors twin (List.map (Item.rename naming)) (Parser.many Parser.item)
      (Parser.many Parser.item) :=
  many Reads.progresses_item Reads.progresses_item h fun n ↦ item (h.skip n)

end Mirrors

end ExprLang.Parser
