import LedgerWire.Json.Reader
import LedgerWire.Proofs.Result

/-!
# Steps of the reader

How blanks are passed, and the ways in which a value, the members of an object and the items of a list
are read: each of the three readers ends well exactly as its step describes, with the fuel that it has
left for what is inside.
-/

namespace LedgerWire

namespace Json

/-! ### Blanks -/

/-- A run of code points of one kind ends where the next one is of another. -/
theorem takeWhile_append {p : CodePoint → Bool} {s t : Text} (hs : ∀ c ∈ s, p c)
    (ht : ∀ c ∈ t.head?, p c = false) : (s ++ t).takeWhile p = s := by
  rw [List.takeWhile_append_of_pos hs]
  cases t with
  | nil => rw [List.takeWhile_nil, List.append_nil]
  | cons c t =>
    have hc := ht c rfl
    rw [List.takeWhile_cons_of_neg (by rw [hc]; decide), List.append_nil]

/-- No blank stands at the beginning. -/
def NoSpace (t : Text) : Prop := ∀ c ∈ t.head?, isSpace c = false

theorem skipSpace_append (blanks : Text) {t : Text} (hblanks : ∀ c ∈ blanks, isSpace c)
    (ht : NoSpace t) (position : Nat) :
    Cursor.skipSpace ⟨position, blanks ++ t⟩ = ⟨position + blanks.length, t⟩ := by
  rw [Cursor.skipSpace, takeWhile_append hblanks ht, Cursor.advance, List.drop_left]

theorem skipSpace_none {t : Text} (ht : NoSpace t) (position : Nat) :
    Cursor.skipSpace ⟨position, t⟩ = ⟨position, t⟩ :=
  skipSpace_append [] (List.forall_mem_nil _) ht position

/-! ### Steps of the reader -/

/-- The ways in which a value is read, with `fuel` left for what is inside it. -/
inductive ReadsValue (fuel : Nat) (cursor : Cursor) : Json → Cursor → Prop
  | string {t : Text} {next : Cursor} (h : cursor.isAt '"') (ht : stringAt cursor = .ok (t, next)) :
    ReadsValue fuel cursor (.text t) next
  | emptyObject (h : cursor.isAt '\x7b') (hend : (cursor.advance 1).skipSpace.isAt '\x7d') :
    ReadsValue fuel cursor (.object []) ((cursor.advance 1).skipSpace.advance 1)
  | object {members : List (Text × Json)} {next : Cursor} (h : cursor.isAt '\x7b')
      (hend : (cursor.advance 1).skipSpace.isAt '\x7d' = false)
      (hmembers : membersAt fuel [] (cursor.advance 1).skipSpace = .ok (members, next)) :
    ReadsValue fuel cursor (.object members) next
  | emptyList (h : cursor.isAt '[') (hend : (cursor.advance 1).skipSpace.isAt ']') :
    ReadsValue fuel cursor (.list []) ((cursor.advance 1).skipSpace.advance 1)
  | list {items : List Json} {next : Cursor} (h : cursor.isAt '[')
      (hend : (cursor.advance 1).skipSpace.isAt ']' = false)
      (hitems : itemsAt fuel (cursor.advance 1).skipSpace = .ok (items, next)) :
    ReadsValue fuel cursor (.list items) next
  | word {j : Json} {next : Cursor} (hquote : cursor.isAt '"' = false)
      (hbrace : cursor.isAt '\x7b' = false) (hbracket : cursor.isAt '[' = false)
      (h : wordAt? cursor = some (j, next)) : ReadsValue fuel cursor j next
  | number {j : Json} {next : Cursor} (hquote : cursor.isAt '"' = false)
      (hbrace : cursor.isAt '\x7b' = false) (hbracket : cursor.isAt '[' = false)
      (hword : wordAt? cursor = none) (h : numberAt cursor = .ok (j, next)) :
    ReadsValue fuel cursor j next

section Steps

variable {fuel : Nat} {cursor next : Cursor} {j : Json}

/-- One code point stands at a place. -/
theorem isAt_ne {c d : Char} (h : cursor.isAt c) (hcd : CodePoint.ofChar c ≠ CodePoint.ofChar d) :
    cursor.isAt d = false := by
  have hc : cursor.rest.head? = some (CodePoint.ofChar c) := eq_of_beq h
  rw [Cursor.isAt, hc]
  exact beq_eq_false_iff_ne.mpr fun he => hcd (Option.some.inj he)

theorem valueAt_eq_ok :
    valueAt (fuel + 1) cursor = .ok (j, next) ↔ ReadsValue fuel cursor j next := by
  rw [valueAt]
  dsimp only
  constructor
  · intro h
    split at h
    · next hquote =>
      obtain ⟨⟨t, _⟩, ht, heq⟩ := bind_eq_ok.mp h
      cases heq
      exact .string hquote ht
    · next hquote =>
      split at h
      · next hbrace =>
        split at h
        · next hend =>
          cases h
          exact .emptyObject hbrace hend
        · next hend =>
          obtain ⟨⟨members, _⟩, hmembers, heq⟩ := bind_eq_ok.mp h
          cases heq
          exact .object hbrace (Bool.not_eq_true _ ▸ hend) hmembers
      · next hbrace =>
        split at h
        · next hbracket =>
          split at h
          · next hend =>
            cases h
            exact .emptyList hbracket hend
          · next hend =>
            obtain ⟨⟨items, _⟩, hitems, heq⟩ := bind_eq_ok.mp h
            cases heq
            exact .list hbracket (Bool.not_eq_true _ ▸ hend) hitems
        · next hbracket =>
          rw [Bool.not_eq_true] at hquote hbrace hbracket
          split at h
          · next found hword =>
            obtain rfl := Except.ok.inj h
            exact .word hquote hbrace hbracket hword
          · next hword => exact .number hquote hbrace hbracket hword h
  · intro h
    cases h with
    | string h ht => rw [if_pos h, ht]; rfl
    | emptyObject h hend =>
      rw [isAt_ne h (by decide), if_neg Bool.false_ne_true, if_pos h, if_pos hend]
    | object h hend hmembers =>
      rw [isAt_ne h (by decide), if_neg Bool.false_ne_true, if_pos h, hend, if_neg Bool.false_ne_true,
        hmembers]
      rfl
    | emptyList h hend =>
      rw [isAt_ne h (by decide), if_neg Bool.false_ne_true, isAt_ne h (by decide),
        if_neg Bool.false_ne_true, if_pos h, if_pos hend]
    | list h hend hitems =>
      rw [isAt_ne h (by decide), if_neg Bool.false_ne_true, isAt_ne h (by decide),
        if_neg Bool.false_ne_true, if_pos h, hend, if_neg Bool.false_ne_true, hitems]
      rfl
    | word hquote hbrace hbracket h =>
      rw [hquote, if_neg Bool.false_ne_true, hbrace, if_neg Bool.false_ne_true, hbracket,
        if_neg Bool.false_ne_true, h]
    | number hquote hbrace hbracket hword h =>
      rw [hquote, if_neg Bool.false_ne_true, hbrace, if_neg Bool.false_ne_true, hbracket,
        if_neg Bool.false_ne_true, hword]
      exact h

/-- What has to stand at a place is there. -/
theorem guard_eq_ok {α : Type} {b : Bool} {reason : Reason} {f : Unit → Except Fault α} {a : α} :
    (if !b then cursor.fail reason >>= f else f ()) = .ok a ↔ b ∧ f () = .ok a := by
  cases b with
  | false => exact iff_of_false nofun nofun
  | true => exact (and_iff_right rfl).symm

theorem membersAt_eq_ok {sofar members : List (Text × Json)} :
    membersAt (fuel + 1) sofar cursor = .ok (members, next) ↔ cursor.isAt '"' ∧
      ∃ name afterName value afterValue, stringAt cursor = .ok (name, afterName) ∧
        afterName.skipSpace.isAt ':' ∧
        valueAt fuel (afterName.skipSpace.advance 1).skipSpace = .ok (value, afterValue) ∧
        (afterValue.skipSpace.isAt '\x7d' ∧ members = insertMember name value sofar ∧
            next = afterValue.skipSpace.advance 1 ∨
          afterValue.skipSpace.isAt ',' ∧ membersAt fuel (insertMember name value sofar)
            (afterValue.skipSpace.advance 1).skipSpace = .ok (members, next)) := by
  rw [membersAt]
  refine guard_eq_ok.trans (and_congr_right fun _ => bind_eq_ok.trans ?_)
  constructor
  · rintro ⟨⟨name, afterName⟩, hname, h⟩
    obtain ⟨hcolon, h⟩ := guard_eq_ok.mp h
    obtain ⟨⟨value, afterValue⟩, hvalue, h⟩ := bind_eq_ok.mp h
    refine ⟨name, afterName, value, afterValue, hname, hcolon, hvalue, ?_⟩
    dsimp only at h
    split at h
    · next hend =>
      cases h
      exact .inl ⟨hend, rfl, rfl⟩
    · split at h
      · next hcomma => exact .inr ⟨hcomma, h⟩
      · cases h
  · rintro ⟨name, afterName, value, afterValue, hname, hcolon, hvalue, h⟩
    refine ⟨(name, afterName), hname, guard_eq_ok.mpr ⟨hcolon, bind_eq_ok.mpr ⟨_, hvalue, ?_⟩⟩⟩
    dsimp only
    rcases h with ⟨hend, rfl, rfl⟩ | ⟨hcomma, h⟩
    · exact if_pos hend
    · rw [isAt_ne hcomma (by decide), if_neg Bool.false_ne_true, if_pos hcomma]
      exact h

theorem itemsAt_eq_ok {items : List Json} :
    itemsAt (fuel + 1) cursor = .ok (items, next) ↔ ∃ item afterItem,
      valueAt fuel cursor = .ok (item, afterItem) ∧
        (afterItem.skipSpace.isAt ']' ∧ items = [item] ∧ next = afterItem.skipSpace.advance 1 ∨
          afterItem.skipSpace.isAt ',' ∧ ∃ items', items = item :: items' ∧
            itemsAt fuel (afterItem.skipSpace.advance 1).skipSpace = .ok (items', next)) := by
  rw [itemsAt, bind_eq_ok]
  constructor
  · rintro ⟨⟨item, afterItem⟩, hitem, h⟩
    refine ⟨item, afterItem, hitem, ?_⟩
    dsimp only at h
    split at h
    · next hend =>
      cases h
      exact .inl ⟨hend, rfl, rfl⟩
    · split at h
      · next hcomma =>
        obtain ⟨⟨items', _⟩, hitems, heq⟩ := bind_eq_ok.mp h
        cases heq
        exact .inr ⟨hcomma, items', rfl, hitems⟩
      · cases h
  · rintro ⟨item, afterItem, hitem, ⟨hend, rfl, rfl⟩ | ⟨hcomma, items', rfl, hitems⟩⟩
    · exact ⟨(item, afterItem), hitem, if_pos hend⟩
    · refine ⟨(item, afterItem), hitem, ?_⟩
      dsimp only
      rw [isAt_ne hcomma (by decide), if_neg Bool.false_ne_true, if_pos hcomma, hitems]
      rfl

end Steps

end Json

end LedgerWire
