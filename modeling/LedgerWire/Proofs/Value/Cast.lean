import LedgerWire.Proofs.Schema.Writing
import Mathlib.Tactic.SplitIfs

/-!
# Values cast to byte strings

A cast takes what the codec takes as a byte string, and makes the same bytes of it. It also takes values
that hold no bytes: a truth value or a number as so many zeros, and a mapping as its keys.
-/

namespace LedgerWire

namespace Value

/-- The value holds no bytes, yet is cast to a byte string. -/
inductive Loose : Value → Bytes → Prop
  | bool (b : Bool) : Loose (.bool b) (List.replicate b.toNat 0)
  | int {n : Nat} (h : n ≤ Bytes.maxLength) : Loose (.int n) (List.replicate n 0)
  | map {entries : Entries} {body : Bytes} (keys : toByteItems (entries.map (·.1)) = .ok body) :
    Loose (.map entries) body

variable {v : Value} {body : Bytes}

@[simp]
theorem castBytes_bool (b : Bool) : (Value.bool b).castBytes = .ok (List.replicate b.toNat 0) := by
  cases b <;> rfl

@[simp] theorem castBytes_int {n : Int} : (Value.int n).castBytes = .ok body ↔
    (0 ≤ n ∧ n ≤ Bytes.maxLength) ∧ List.replicate n.toNat 0 = body := by
  have hmax : (Bytes.maxLength : Int) < 2 ^ 63 := by decide
  simp only [castBytes]
  split_ifs with hhuge hnegative hfits
  · exact iff_of_false nofun fun h => by omega
  · exact iff_of_false nofun fun h => by omega
  · have hrange : 0 ≤ n ∧ n ≤ Bytes.maxLength := ⟨Int.not_lt.mp hnegative, hfits⟩
    rw [Except.ok.injEq, and_iff_right hrange]
  · exact iff_of_false nofun fun h => hfits h.1.2

@[simp] theorem castBytes_list {items : List Value} :
    (Value.list items).castBytes = .ok body ↔ toByteItems items = .ok body :=
  mapError_eq_ok

@[simp] theorem castBytes_map {entries : Entries} :
    (Value.map entries).castBytes = .ok body ↔ toByteItems (entries.map (·.1)) = .ok body :=
  mapError_eq_ok

/-- What is cast is a byte string, a list of bytes, or a value that holds no bytes. -/
theorem castBytes_eq_ok : v.castBytes = .ok body ↔ Schema.Spells v body ∨ Loose v body := by
  unfold Schema.Spells
  constructor
  · intro h
    cases v with
    | bool b =>
      rw [castBytes_bool] at h
      cases h
      exact .inr (.bool b)
    | int n =>
      obtain ⟨⟨hn, hlt⟩, rfl⟩ := castBytes_int.mp h
      obtain ⟨m, rfl⟩ := Int.eq_ofNat_of_zero_le hn
      exact .inr (.int (by omega))
    | bytes bs =>
      cases h
      exact .inl (.inl rfl)
    | list items => exact .inl (.inr ⟨items, rfl, castBytes_list.mp h⟩)
    | map entries => exact .inr (.map (castBytes_map.mp h))
    | none => cases h
    | float x => cases h
    | text t => cases h
  · rintro ((rfl | ⟨items, rfl, hitems⟩) | hloose)
    · rfl
    · exact castBytes_list.mpr hitems
    · cases hloose with
      | bool b => exact castBytes_bool b
      | @int n hn => exact castBytes_int.mpr ⟨by omega, rfl⟩
      | map keys => exact castBytes_map.mpr keys

/-- A value that holds no bytes is no byte string for the codec. -/
theorem Loose.not_spells {body' : Bytes} (h : Loose v body) : ¬ Schema.Spells v body' := by
  unfold Schema.Spells
  cases h <;> simp

end Value

end LedgerWire
