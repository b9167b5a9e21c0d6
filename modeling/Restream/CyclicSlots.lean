import Mathlib.Data.Nat.ModEq

/-! Sequences written round a buffer of `c` slots, sequence `s` into slot
`s % c`, starting at sequence `first`. `holder c first n i` is the sequence
slot `i` holds once every sequence below `n` has been written. -/

namespace Cyclic

def holder (c first : Nat) : Nat → Nat → Option Nat
  | 0, _ => none
  | n + 1, i => if first ≤ n ∧ n % c = i then some n else holder c first n i

variable {c first n i s : Nat}

theorem holder_succ (hn : first ≤ n) :
    holder c first (n + 1) i = if n % c = i then some n else holder c first n i := by
  simp [holder, hn]

theorem eq_of_mod_eq (hmod : s % c = n % c) (hle : s ≤ n) (hlt : n < s + c) : s = n := by
  have hdvd : c ∣ n - s := (Nat.modEq_iff_dvd' hle).mp hmod
  have hz : n - s = 0 := Nat.eq_zero_of_dvd_of_lt hdvd (by omega)
  omega

theorem holder_eq_some_iff (hc : 0 < c) :
    holder c first n i = some s ↔ first ≤ s ∧ s < n ∧ s % c = i ∧ n ≤ s + c := by
  induction n with
  | zero => simp [holder]
  | succ n ih =>
    unfold holder
    split
    · next hw =>
      obtain ⟨hf, rfl⟩ := hw
      constructor
      · intro h
        cases h
        exact ⟨hf, by omega, rfl, by omega⟩
      · rintro ⟨_, hlt, hmod, hle⟩
        rw [eq_of_mod_eq hmod (by omega) (by omega)]
    · next hw =>
      rw [ih]
      constructor
      · rintro ⟨hf, hlt, hmod, hle⟩
        rcases Nat.lt_or_ge n (s + c) with hn | hn
        · omega
        · have hm : n % c = i := by rw [show n = s + c by omega, Nat.add_mod_right, hmod]
          exact absurd ⟨by omega, hm⟩ hw
      · rintro ⟨hf, hlt, hmod, hle⟩
        have hne : s ≠ n := by
          rintro rfl
          exact hw ⟨hf, hmod⟩
        exact ⟨hf, by omega, hmod, by omega⟩

theorem exists_holder (hf : first ≤ s) (hs : s < n) : ∃ t, holder c first n (s % c) = some t := by
  induction n with
  | zero => omega
  | succ n ih =>
    rw [holder_succ (by omega)]
    by_cases hn : n % c = s % c
    · exact ⟨n, if_pos hn⟩
    · have hne : s ≠ n := by
        rintro rfl
        exact hn rfl
      rw [if_neg hn]
      exact ih (by omega)

theorem holder_self (hc : 0 < c) (hf : first ≤ s) (hs : s < n) (hn : n ≤ s + c) :
    holder c first n (s % c) = some s :=
  (holder_eq_some_iff hc).mpr ⟨hf, hs, rfl, hn⟩

end Cyclic
