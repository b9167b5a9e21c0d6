import Mathlib.Logic.Relation

/-! Relations without cycles: one edge more keeps a relation acyclic when its end does
not lead back to its start. -/

namespace Relation

variable {α : Type} {r s : α → α → Prop} {a b x y : α}

def Acyclic (r : α → α → Prop) : Prop := ∀ a, ¬TransGen r a a

theorem Acyclic.mono (hs : Acyclic s) (hle : ∀ a b, r a b → s a b) : Acyclic r :=
  fun a h => hs a (TransGen.mono hle a a h)

theorem acyclic_empty : Acyclic fun _ _ : α => False := by
  intro a h
  obtain ⟨b, -, hb⟩ := TransGen.tail'_iff.mp h
  exact hb

def WithEdge (r : α → α → Prop) (x y : α) : α → α → Prop := fun a b => r a b ∨ (a = x ∧ b = y)

theorem TransGen.cases_withEdge (h : TransGen (WithEdge r x y) a b) :
    TransGen r a b ∨ (ReflTransGen r a x ∧ ReflTransGen r y b) := by
  induction h with
  | single hab =>
    rcases hab with hab | ⟨rfl, rfl⟩
    · exact .inl (.single hab)
    · exact .inr ⟨.refl, .refl⟩
  | tail _ hbc ih =>
    rcases hbc with hbc | ⟨rfl, rfl⟩
    · exact ih.imp (fun hab => hab.tail hbc) (fun ⟨hax, hyb⟩ => ⟨hax, hyb.tail hbc⟩)
    · exact .inr ⟨ih.elim TransGen.to_reflTransGen And.left, .refl⟩

theorem Acyclic.withEdge (hr : Acyclic r) (hyx : ¬ReflTransGen r y x) : Acyclic (WithEdge r x y) := by
  intro a h
  rcases h.cases_withEdge with haa | ⟨hax, hya⟩
  · exact hr a haa
  · exact hyx (hya.trans hax)

end Relation
