import Mathlib.Logic.Relation

/-! Programs that load from a memory which others write between their loads.
`L` names the cells and `R l` is the type of what cell `l` holds. A program
runs either at one instant or load by load, and `Meets` is its weakest
precondition when every load may see a later memory than the one before. -/

namespace Loads

inductive Prog (L : Type) (R : L → Type) (α : Type) : Type where
  | ret (a : α)
  | load (l : L) (k : R l → Prog L R α)

variable {L : Type} {R : L → Type} {α β σ : Type}

namespace Prog

def bind : Prog L R α → (α → Prog L R β) → Prog L R β
  | .ret a, f => f a
  | .load l k, f => .load l fun v => (k v).bind f

instance : Monad (Prog L R) where
  pure := .ret
  bind := bind

def run (answer : (l : L) → R l) : Prog L R α → α
  | .ret a => a
  | .load l k => (k (answer l)).run answer

theorem run_bind (p : Prog L R α) : (p >>= f).run answer = (f (p.run answer)).run answer := by
  induction p with
  | ret a => rfl
  | load l k ih => exact ih (answer l)

end Prog

section Meets

variable (rely : σ → σ → Prop) (allow : σ → L → Prop) (answer : σ → (l : L) → R l)

/-- From memory `s`, whatever memories `rely` leads to before each load, as
long as `allow` admits the loads made, the program ends with `post`. -/
def Meets : Prog L R α → (α → σ → Prop) → σ → Prop
  | .ret a, post, s => ∀ t, rely s t → post a t
  | .load l k, post, s => ∀ t, rely s t → allow t l → Meets (k (answer t l)) post t

variable {rely allow answer}

variable {p : Prog L R α} {post : α → σ → Prop} {s : σ}

theorem Meets.mono {post' : α → σ → Prop} (hp : ∀ a s, post a s → post' a s)
    (h : Meets rely allow answer p post s) : Meets rely allow answer p post' s := by
  induction p generalizing s with
  | ret a => exact fun t ht => hp a t (h t ht)
  | load l k ih => exact fun t ht ha => ih _ (h t ht ha)

theorem Meets.later {t : σ} (hst : rely s t) (h : Meets rely allow answer p post s)
    (ht : ∀ a b c, rely a b → rely b c → rely a c) : Meets rely allow answer p post t := by
  cases p with
  | ret a => exact fun u hu => h u (ht _ _ _ hst hu)
  | load l k => exact fun u hu ha => h u (ht _ _ _ hst hu) ha

theorem Meets.since (h : Meets rely allow answer p post s)
    (htr : ∀ a b c, rely a b → rely b c → rely a c) :
    Meets rely allow answer p (fun a t => rely s t ∧ post a t) s := by
  induction p generalizing s with
  | ret a => exact fun t ht => ⟨ht, h t ht⟩
  | load l k ih =>
    intro t ht ha
    exact Meets.mono (fun a u hu => ⟨htr _ _ _ ht hu.1, hu.2⟩) (ih _ (h t ht ha))

theorem Meets.bind (hr : ∀ a, rely a a) {f : α → Prog L R β} {post : β → σ → Prop}
    (h : Meets rely allow answer p (fun a t => Meets rely allow answer (f a) post t) s) :
    Meets rely allow answer (p >>= f) post s := by
  induction p generalizing s with
  | ret a => exact h s (hr s)
  | load l k ih => exact fun t ht ha => ih _ (h t ht ha)

end Meets

end Loads
