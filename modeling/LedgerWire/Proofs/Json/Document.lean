import LedgerWire.Proofs.Json.Reader
import LedgerWire.Proofs.Json.String
import LedgerWire.Proofs.Json.Writer

/-!
# Documents that were written

`document_render` reads back every document whose texts have no surrogate pair in two parts and whose
objects have each name once, and `proper_of_document` finds every document that was read from a file to
be such a one. A value that was written ends where a comma, a new line or the end of the text closes it.
-/

namespace LedgerWire

namespace Json

mutual

/-- Texts are joined, and an object has each name once. -/
def Proper : Json → Prop
  | .text t => Joined t
  | .list items => ProperItems items
  | .object members => ProperMembers members
  | _ => True

def ProperItems : List Json → Prop
  | [] => True
  | item :: items => Proper item ∧ ProperItems items

def ProperMembers : List (Text × Json) → Prop
  | [] => True
  | (name, value) :: members =>
    Joined name ∧ Proper value ∧ (∀ member ∈ members, member.1 ≠ name) ∧ ProperMembers members

end

/-! ### Reading what was written -/

theorem isAt_cons (position : Nat) (c : Char) (t : Text) :
    Cursor.isAt ⟨position, CodePoint.ofChar c :: t⟩ c := beq_self_eq_true _

/-- A document is read from its text, with fuel for every code point of it. -/
def Readable (j : Json) : Prop := ∀ level fuel position rest, Closes rest →
  (renderAt level j).length < fuel →
    ∃ next, valueAt fuel ⟨position, renderAt level j ++ rest⟩ = .ok (j, ⟨next, rest⟩)

theorem readable_of_reads {j : Json} (h : ∀ level fuel position rest, Closes rest →
    (renderAt level j).length ≤ fuel →
      ∃ next, ReadsValue fuel ⟨position, renderAt level j ++ rest⟩ j ⟨next, rest⟩) : Readable j := by
  intro level fuel position rest hrest hfuel
  obtain ⟨fuel, rfl⟩ := Nat.exists_eq_add_one_of_ne_zero (Nat.ne_zero_of_lt hfuel)
  obtain ⟨next, hnext⟩ := h level fuel position rest hrest (Nat.le_of_lt_succ hfuel)
  exact ⟨next, valueAt_eq_ok.mpr hnext⟩

theorem readable_number {j : Json} (n : NumberText) (htext : ∀ level, renderAt level j = n.text)
    (hvalue : n.value = j) : Readable j := by
  refine readable_of_reads fun level fuel position rest hrest _ => ?_
  obtain ⟨next, hnext⟩ := n.numberAt_text hrest position
  rw [htext, ← hvalue]
  exact ⟨next, .number (n.isAt_text rest rfl (by decide) position)
    (n.isAt_text rest rfl (by decide) position) (n.isAt_text rest rfl (by decide) position)
    (n.wordAt?_text rest position) hnext⟩

/-- Words are read as what they stand for. -/
theorem readable_word {j : Json} (name : String)
    (htext : ∀ level, renderAt level j = Text.ofString name)
    (hword : ∀ position rest,
      (Cursor.isAt ⟨position, Text.ofString name ++ rest⟩ '"' = false ∧
        Cursor.isAt ⟨position, Text.ofString name ++ rest⟩ '\x7b' = false ∧
        Cursor.isAt ⟨position, Text.ofString name ++ rest⟩ '[' = false) ∧
      ∃ next, wordAt? ⟨position, Text.ofString name ++ rest⟩ = some (j, ⟨next, rest⟩)) :
    Readable j := by
  refine readable_of_reads fun level fuel position rest _ _ => ?_
  obtain ⟨⟨hquote, hbrace, hbracket⟩, next, hnext⟩ := hword position rest
  rw [htext]
  exact ⟨next, .word hquote hbrace hbracket hnext⟩

theorem readable_float (x : Binary64) : Readable (.float x) := by
  have htext (level : Nat) : renderAt level (.float x) = renderFloat x := by rw [renderAt]
  cases x with
  | nan => exact readable_word "NaN" htext fun _ _ => ⟨⟨rfl, rfl, rfl⟩, _, rfl⟩
  | infinite negative =>
    cases negative with
    | false => exact readable_word "Infinity" htext fun _ _ => ⟨⟨rfl, rfl, rfl⟩, _, rfl⟩
    | true => exact readable_word "-Infinity" htext fun _ _ => ⟨⟨rfl, rfl, rfl⟩, _, rfl⟩
  | finite x =>
    obtain ⟨n, hn, hvalue⟩ := NumberText.exists_finite x
    exact readable_number n (fun level => (htext level).trans hn.symm) hvalue

theorem readable_text {t : Text} (ht : Joined t) : Readable (.text t) := by
  refine readable_of_reads fun level fuel position rest _ _ => ?_
  obtain ⟨next, hnext⟩ := stringAt_renderString ht position rest
  rw [renderAt]
  exact ⟨next, .string (isAt_cons position '"' _) hnext⟩

/-- The items of a list are read up to its end. -/
theorem itemsAt_closing {item : Json} {items : List Json} (hitem : Readable item)
    (hitems : ∀ item ∈ items, Readable item) (level fuel position : Nat) (rest : Text)
    (hfuel : (renderAt (level + 1) item ++
      closing level (renderItems (level + 1) items) (CodePoint.ofChar ']')).length < fuel) :
    ∃ next, itemsAt fuel ⟨position, renderAt (level + 1) item ++
      (closing level (renderItems (level + 1) items) (CodePoint.ofChar ']') ++ rest)⟩ =
        .ok (item :: items, ⟨next, rest⟩) := by
  induction items generalizing item fuel position with
  | nil =>
    obtain ⟨fuel, rfl⟩ := Nat.exists_eq_add_one_of_ne_zero (Nat.ne_zero_of_lt hfuel)
    have hlen := length_closing level [] (CodePoint.ofChar ']')
    rw [List.length_append, renderItems] at hfuel
    obtain ⟨middle, hmiddle⟩ := hitem (level + 1) fuel position _
      (closes_closing level [] (CodePoint.ofChar ']') rest) (by omega)
    obtain ⟨last, hlast⟩ := skipSpace_closing_nil (CodePoint.ofChar ']') rfl level middle rest
    refine ⟨last + 1, itemsAt_eq_ok.mpr ⟨item, _, hmiddle, .inl ?_⟩⟩
    rw [hlast]
    exact ⟨isAt_cons last ']' rest, rfl, rfl⟩
  | cons item' items ih =>
    obtain ⟨fuel, rfl⟩ := Nat.exists_eq_add_one_of_ne_zero (Nat.ne_zero_of_lt hfuel)
    obtain ⟨hitem', hitems'⟩ := List.forall_mem_cons.mp hitems
    rw [renderItems] at hfuel ⊢
    simp only [closing_cons, List.length_cons, List.length_append] at hfuel
    obtain ⟨middle, hmiddle⟩ := hitem (level + 1) fuel position _
      (closes_closing level _ (CodePoint.ofChar ']') rest) (by omega)
    obtain ⟨hcomma, start, hstart⟩ := skipSpace_closing_cons
      (noSpace_renderAt (level + 1) item' _) (level + 1) middle
    obtain ⟨next, hnext⟩ := ih hitem' hitems' fuel start (by rw [List.length_append]; omega)
    rw [← hstart] at hnext
    exact ⟨next, itemsAt_eq_ok.mpr ⟨item, _, hmiddle, .inr ⟨hcomma, _, rfl, hnext⟩⟩⟩

theorem insertMember_fresh {name : Text} {value : Json} {members : List (Text × Json)}
    (h : ∀ member ∈ members, member.1 ≠ name) :
    insertMember name value members = members ++ [(name, value)] := by
  induction members with
  | nil => rfl
  | cons member members ih =>
    obtain ⟨hne, h⟩ := List.forall_mem_cons.mp h
    rw [insertMember, if_neg hne, ih h]
    rfl

theorem noSpace_memberText (level : Nat) (member : Text × Json) (rest : Text) :
    NoSpace (memberText level member ++ rest) := by
  rintro _ ⟨⟩
  rfl

/-- Name and value of one member are read. -/
theorem exists_member {member : Text × Json} (hname : Joined member.1) (hvalue : Readable member.2)
    (level fuel position : Nat) {tail : Text} (htail : Closes tail)
    (hfuel : (memberText level member).length ≤ fuel) : ∃ afterName next,
      stringAt ⟨position, memberText level member ++ tail⟩ = .ok (member.1, afterName) ∧
        afterName.skipSpace.isAt ':' ∧
        valueAt fuel (afterName.skipSpace.advance 1).skipSpace = .ok (member.2, ⟨next, tail⟩) := by
  rw [memberText, List.length_append, List.length_cons, List.length_cons] at hfuel
  obtain ⟨middle, hmiddle⟩ := stringAt_renderString hname position
    (CodePoint.ofChar ':' :: CodePoint.ofChar ' ' :: renderAt level member.2 ++ tail)
  obtain ⟨next, hnext⟩ := hvalue level fuel (middle + 2) tail htail (by omega)
  rw [← List.append_assoc] at hmiddle
  refine ⟨_, next, hmiddle, ?_⟩
  rw [skipSpace_none (by rintro _ ⟨⟩; rfl)]
  refine ⟨isAt_cons middle ':' _, ?_⟩
  have hblank := skipSpace_append [CodePoint.ofChar ' '] (List.forall_mem_singleton.mpr rfl)
    (noSpace_renderAt level member.2 tail) (middle + 1)
  rw [← hnext]
  exact congrArg (valueAt fuel) hblank

/-- The members of an object are read up to its end, after those that were read before. -/
theorem membersAt_closing {member : Text × Json} {members : List (Text × Json)}
    (sofar : List (Text × Json)) (hproper : ProperMembers (member :: members))
    (hfresh : ∀ m ∈ member :: members, ∀ m' ∈ sofar, m'.1 ≠ m.1)
    (hmembers : ∀ m ∈ member :: members, Readable m.2) (level fuel position : Nat) (rest : Text)
    (hfuel : (memberText (level + 1) member ++
      closing level (renderMembers (level + 1) members) (CodePoint.ofChar '\x7d')).length < fuel) :
    ∃ next, membersAt fuel sofar ⟨position, memberText (level + 1) member ++
      (closing level (renderMembers (level + 1) members) (CodePoint.ofChar '\x7d') ++ rest)⟩ =
        .ok (sofar ++ member :: members, ⟨next, rest⟩) := by
  induction members generalizing member sofar fuel position with
  | nil =>
    obtain ⟨fuel, rfl⟩ := Nat.exists_eq_add_one_of_ne_zero (Nat.ne_zero_of_lt hfuel)
    have hlen := length_closing level [] (CodePoint.ofChar '\x7d')
    rw [List.length_append, renderMembers] at hfuel
    obtain ⟨afterName, middle, hname, hcolon, hvalue⟩ := exists_member hproper.1
      (hmembers member List.mem_cons_self) (level + 1) fuel position
      (closes_closing level [] (CodePoint.ofChar '\x7d') rest) (by omega)
    obtain ⟨last, hlast⟩ := skipSpace_closing_nil (CodePoint.ofChar '\x7d') rfl level middle rest
    refine ⟨last + 1, membersAt_eq_ok.mpr ⟨isAt_cons position '"' _, _, _, _, _, hname, hcolon, hvalue,
      .inl ?_⟩⟩
    rw [hlast, insertMember_fresh (hfresh member List.mem_cons_self)]
    exact ⟨isAt_cons last '\x7d' rest, rfl, rfl⟩
  | cons member' members ih =>
    obtain ⟨fuel, rfl⟩ := Nat.exists_eq_add_one_of_ne_zero (Nat.ne_zero_of_lt hfuel)
    obtain ⟨hjoined, -, hother, hproper'⟩ := hproper
    obtain ⟨hvalue, hmembers'⟩ := List.forall_mem_cons.mp hmembers
    obtain ⟨hfreshHead, hfresh'⟩ := List.forall_mem_cons.mp hfresh
    rw [renderMembers_cons] at hfuel ⊢
    simp only [closing_cons, List.length_cons, List.length_append] at hfuel
    obtain ⟨afterName, middle, hname, hcolon, hvalue⟩ := exists_member hjoined hvalue (level + 1)
      fuel position (closes_closing level _ (CodePoint.ofChar '\x7d') rest) (by omega)
    obtain ⟨hcomma, start, hstart⟩ := skipSpace_closing_cons
      (noSpace_memberText (level + 1) member' _) (level + 1) middle
    have hfreshSnoc : ∀ m ∈ member' :: members, ∀ m' ∈ sofar ++ [member], m'.1 ≠ m.1 := by
      intro m hm m' hm'
      rcases List.mem_append.mp hm' with hm' | hm'
      · exact hfresh' m hm m' hm'
      · rw [List.mem_singleton.mp hm']
        exact (hother m hm).symm
    obtain ⟨next, hnext⟩ := ih _ hproper' hfreshSnoc hmembers' fuel start
      (by rw [List.length_append]; omega)
    rw [List.append_assoc, ← hstart] at hnext
    refine ⟨next, membersAt_eq_ok.mpr ⟨isAt_cons position '"' _, _, _, _, _, hname, hcolon, hvalue,
      .inr ⟨hcomma, ?_⟩⟩⟩
    rw [insertMember_fresh hfreshHead]
    exact hnext

theorem readable_list {items : List Json} (hitems : ∀ item ∈ items, Readable item) :
    Readable (.list items) := by
  refine readable_of_reads fun level fuel position rest hrest hfuel => ?_
  cases items with
  | nil =>
    rw [renderAt]
    exact ⟨_, .emptyList rfl rfl⟩
  | cons item items =>
    obtain ⟨hitem, hitems⟩ := List.forall_mem_cons.mp hitems
    rw [renderAt_list] at hfuel ⊢
    simp only [List.length_cons, List.length_append] at hfuel
    obtain ⟨start, hstart⟩ := skipSpace_after (noSpace_renderAt (level + 1) item
      (closing level (renderItems (level + 1) items) (CodePoint.ofChar ']') ++ rest))
      (CodePoint.ofChar '[') (level + 1) position
    obtain ⟨next, hnext⟩ := itemsAt_closing hitem hitems level fuel start rest
      (by rw [List.length_append]; omega)
    have hinside := isAt_renderAt (level + 1) item start
      (closing level (renderItems (level + 1) items) (CodePoint.ofChar ']') ++ rest)
    rw [List.cons_append, List.append_assoc, List.append_assoc]
    rw [← hstart] at hnext hinside
    exact ⟨next, .list (isAt_cons position '[' _) hinside hnext⟩

theorem readable_object {members : List (Text × Json)} (hproper : ProperMembers members)
    (hmembers : ∀ member ∈ members, Readable member.2) : Readable (.object members) := by
  refine readable_of_reads fun level fuel position rest hrest hfuel => ?_
  cases members with
  | nil =>
    rw [renderAt]
    exact ⟨_, .emptyObject rfl rfl⟩
  | cons member members =>
    rw [renderAt_object] at hfuel ⊢
    simp only [List.length_cons, List.length_append] at hfuel
    obtain ⟨start, hstart⟩ := skipSpace_after (noSpace_memberText (level + 1) member
      (closing level (renderMembers (level + 1) members) (CodePoint.ofChar '\x7d') ++ rest))
      (CodePoint.ofChar '\x7b') (level + 1) position
    obtain ⟨next, hnext⟩ := membersAt_closing [] hproper (fun _ _ _ hm => nomatch hm) hmembers
      level fuel start rest (by rw [List.length_append]; omega)
    rw [List.cons_append, List.append_assoc, List.append_assoc]
    refine ⟨next, .object (isAt_cons position '\x7b' _) (hstart ▸ rfl) ?_⟩
    rw [hstart]
    exact hnext

/-! ### Documents -/

mutual

theorem readable : ∀ j : Json, Proper j → Readable j
  | .null, _ => readable_word "null" (fun _ => by rw [renderAt])
      fun _ _ => ⟨⟨rfl, rfl, rfl⟩, _, rfl⟩
  | .bool true, _ => readable_word "true" (fun _ => by rw [renderAt]; rfl)
      fun _ _ => ⟨⟨rfl, rfl, rfl⟩, _, rfl⟩
  | .bool false, _ => readable_word "false" (fun _ => by rw [renderAt]; rfl)
      fun _ _ => ⟨⟨rfl, rfl, rfl⟩, _, rfl⟩
  | .int n, _ => readable_number (.ofInt n) (fun _ => by simp [renderAt])
      (NumberText.value_ofInt n)
  | .float x, _ => readable_float x
  | .text _, h => readable_text h
  | .list items, h => readable_list (readable_items items h)
  | .object members, h => readable_object h (readable_members members h)

theorem readable_items : ∀ items : List Json, ProperItems items → ∀ item ∈ items, Readable item
  | [], _ => List.forall_mem_nil _
  | item :: items, h =>
    List.forall_mem_cons.mpr ⟨readable item h.1, readable_items items h.2⟩

theorem readable_members : ∀ members : List (Text × Json), ProperMembers members →
    ∀ member ∈ members, Readable member.2
  | [], _ => List.forall_mem_nil _
  | (_, value) :: members, h =>
    List.forall_mem_cons.mpr ⟨readable value h.2.1, readable_members members h.2.2.2⟩

end

/-- A document is read back from the text that it is written as. -/
theorem document_render {j : Json} (hj : Proper j) : document (render j) = .ok j := by
  have hmark : ¬ (render j).head? = some (CodePoint.ofNat 0xFEFF) := fun h =>
    absurd (allPlain_renderAt 0 j _ (List.mem_of_mem_head? h)) (by decide)
  have hspace := noSpace_renderAt 0 j []
  obtain ⟨next, hnext⟩ := readable j hj 0 (2 * (render j).length + 2) 0 [] nofun
    (show (render j).length < _ by omega)
  rw [List.append_nil] at hspace hnext
  have hstart : Cursor.skipSpace ⟨0, render j⟩ = ⟨0, renderAt 0 j⟩ := skipSpace_none hspace 0
  unfold document
  dsimp only
  rw [if_neg hmark, hstart, hnext]
  rfl

/-! ### What was read -/

theorem mem_insertMember {name : Text} {value : Json} {member : Text × Json}
    {members : List (Text × Json)} (h : member ∈ insertMember name value members) :
    member.1 = name ∨ ∃ other ∈ members, member.1 = other.1 := by
  induction members with
  | nil =>
    rw [List.mem_singleton.mp h]
    exact .inl rfl
  | cons other members ih =>
    obtain ⟨n, v⟩ := other
    unfold insertMember at h
    split at h
    · next hn =>
      rcases List.mem_cons.mp h with rfl | h
      · exact .inl hn
      · exact .inr ⟨member, List.mem_cons_of_mem _ h, rfl⟩
    · rcases List.mem_cons.mp h with rfl | h
      · exact .inr ⟨_, List.mem_cons_self, rfl⟩
      · rcases ih h with hname | ⟨other, hother, heq⟩
        · exact .inl hname
        · exact .inr ⟨other, List.mem_cons_of_mem _ hother, heq⟩

/-- A member takes the place of one with its name. -/
theorem properMembers_insert {name : Text} {value : Json} (hname : Joined name) (hvalue : Proper value)
    {members : List (Text × Json)} (h : ProperMembers members) :
    ProperMembers (insertMember name value members) := by
  induction members with
  | nil => exact ⟨hname, hvalue, List.forall_mem_nil _, trivial⟩
  | cons member members ih =>
    obtain ⟨n, v⟩ := member
    obtain ⟨hn, hv, hfresh, hrest⟩ := h
    unfold insertMember
    split
    · exact ⟨hn, hvalue, hfresh, hrest⟩
    · next hne =>
      refine ⟨hn, hv, fun member hmember => ?_, ih hrest⟩
      rcases mem_insertMember hmember with heq | ⟨other, hother, heq⟩
      · rw [heq]
        exact Ne.symm hne
      · rw [heq]
        exact hfresh other hother

theorem suffix_advance (cursor : Cursor) (count : Nat) : (cursor.advance count).rest <:+ cursor.rest :=
  List.drop_suffix _ _

theorem suffix_skipSpace (cursor : Cursor) : cursor.skipSpace.rest <:+ cursor.rest :=
  suffix_advance cursor _

theorem proper_of_numberAt {cursor next : Cursor} {j : Json} (h : numberAt cursor = .ok (j, next)) :
    Proper j ∧ next.rest <:+ cursor.rest := by
  have hstart : (if cursor.isAt '-' then cursor.advance 1 else cursor).rest <:+ cursor.rest := by
    split
    · exact suffix_advance cursor 1
    · exact List.suffix_refl _
  unfold numberAt at h
  dsimp only at h
  generalize (if cursor.isAt '-' then cursor.advance 1 else cursor) = start at h hstart
  have hwhole := (suffix_advance start (wholeDigits start.rest).length).trans hstart
  generalize start.advance _ = afterWhole at h hwhole
  have hfraction : (if (fractionDigits afterWhole.rest).isEmpty then afterWhole
      else afterWhole.advance ((fractionDigits afterWhole.rest).length + 1)).rest <:+ cursor.rest := by
    split
    · exact hwhole
    · exact (suffix_advance afterWhole _).trans hwhole
  generalize (if (fractionDigits afterWhole.rest).isEmpty then afterWhole
      else afterWhole.advance ((fractionDigits afterWhole.rest).length + 1)) = afterFraction
    at h hfraction
  split at h
  · cases h
  · split at h
    · cases h
      exact ⟨trivial, hfraction⟩
    · cases h
      exact ⟨trivial, (suffix_advance _ _).trans hfraction⟩

theorem proper_of_word {cursor next : Cursor} {j value : Json} {p : Prop} [Decidable p] {count : Nat}
    {other : Option (Json × Cursor)}
    (h : ((if p then some (value, cursor.advance count) else none) <|> other) = some (j, next))
    (hvalue : Proper value) (hother : other = some (j, next) → Proper j ∧ next.rest <:+ cursor.rest) :
    Proper j ∧ next.rest <:+ cursor.rest := by
  by_cases hp : p
  · rw [if_pos hp] at h
    cases h
    exact ⟨hvalue, suffix_advance cursor count⟩
  · rw [if_neg hp] at h
    exact hother h

theorem proper_of_wordAt? {cursor next : Cursor} {j : Json} (h : wordAt? cursor = some (j, next)) :
    Proper j ∧ next.rest <:+ cursor.rest := by
  refine proper_of_word h trivial fun h => proper_of_word h trivial fun h =>
    proper_of_word h trivial fun h => proper_of_word h trivial fun h =>
    proper_of_word h trivial fun h => ?_
  obtain ⟨-, heq⟩ := Option.ite_none_right_eq_some.mp h
  cases heq
  exact ⟨trivial, suffix_advance cursor _⟩

theorem proper_of_stringAt {cursor next : Cursor} {t : Text} (hcursor : Scalar cursor.rest)
    (h : stringAt cursor = .ok (t, next)) : Joined t ∧ next.rest <:+ cursor.rest := by
  have hsuffix := suffix_advance cursor 1
  obtain ⟨hjoined, hrest⟩ := joined_of_stringBody (hcursor.suffix hsuffix) h
  exact ⟨hjoined, hrest.trans hsuffix⟩

/-- What a reader that ended well has read and left. -/
def Sound {α : Type} (proper : α → Prop) (cursor : Cursor) (read : Except Fault (α × Cursor)) : Prop :=
  ∀ a next, read = .ok (a, next) → proper a ∧ next.rest <:+ cursor.rest

/-- One step of each reader is sound if the steps inside it are. -/
theorem sound_of_reads (fuel : Nat) :
    (∀ cursor, Scalar cursor.rest → Sound Proper cursor (valueAt fuel cursor)) ∧
    (∀ sofar cursor, ProperMembers sofar → Scalar cursor.rest →
      Sound ProperMembers cursor (membersAt fuel sofar cursor)) ∧
    (∀ cursor, Scalar cursor.rest → Sound ProperItems cursor (itemsAt fuel cursor)) := by
  induction fuel with
  | zero => exact ⟨fun _ _ _ _ => nofun, fun _ _ _ _ _ _ => nofun, fun _ _ _ _ => nofun⟩
  | succ fuel ih =>
    obtain ⟨hvalue, hmembers, hitems⟩ := ih
    refine ⟨?_, ?_, ?_⟩
    · intro cursor hcursor j next h
      have hinside := (suffix_skipSpace (cursor.advance 1)).trans (suffix_advance cursor 1)
      cases valueAt_eq_ok.mp h with
      | string _ ht => exact proper_of_stringAt hcursor ht
      | emptyObject => exact ⟨trivial, (suffix_advance _ 1).trans hinside⟩
      | object _ _ h =>
        obtain ⟨hproper, hnext⟩ := hmembers [] _ trivial (hcursor.suffix hinside) _ _ h
        exact ⟨hproper, hnext.trans hinside⟩
      | emptyList => exact ⟨trivial, (suffix_advance _ 1).trans hinside⟩
      | list _ _ h =>
        obtain ⟨hproper, hnext⟩ := hitems _ (hcursor.suffix hinside) _ _ h
        exact ⟨hproper, hnext.trans hinside⟩
      | word _ _ _ h => exact proper_of_wordAt? h
      | number _ _ _ _ h => exact proper_of_numberAt h
    · intro sofar cursor hsofar hcursor members next h
      obtain ⟨-, name, afterName, value, afterValue, hname, -, hval, h⟩ := membersAt_eq_ok.mp h
      obtain ⟨hjoined, hsuffix⟩ := proper_of_stringAt hcursor hname
      have hcolon := ((suffix_skipSpace _).trans (suffix_advance _ 1)).trans
        ((suffix_skipSpace afterName).trans hsuffix)
      obtain ⟨hproper, hafter⟩ := hvalue _ (hcursor.suffix hcolon) _ _ hval
      have hinsert := properMembers_insert hjoined hproper hsofar
      have hend := (suffix_advance _ 1).trans
        ((suffix_skipSpace afterValue).trans (hafter.trans hcolon))
      rcases h with ⟨-, rfl, rfl⟩ | ⟨-, h⟩
      · exact ⟨hinsert, hend⟩
      · have hcomma := (suffix_skipSpace _).trans hend
        obtain ⟨hproper, hnext⟩ := hmembers _ _ hinsert (hcursor.suffix hcomma) _ _ h
        exact ⟨hproper, hnext.trans hcomma⟩
    · intro cursor hcursor items next h
      obtain ⟨item, afterItem, hitem, hrest⟩ := itemsAt_eq_ok.mp h
      obtain ⟨hproper, hafter⟩ := hvalue _ hcursor _ _ hitem
      have hend := (suffix_advance _ 1).trans ((suffix_skipSpace afterItem).trans hafter)
      rcases hrest with ⟨-, rfl, rfl⟩ | ⟨-, items', rfl, hrest⟩
      · exact ⟨⟨hproper, trivial⟩, hend⟩
      · have hcomma := (suffix_skipSpace _).trans hend
        obtain ⟨hproper', hnext⟩ := hitems _ (hcursor.suffix hcomma) _ _ hrest
        exact ⟨⟨hproper, hproper'⟩, hnext.trans hcomma⟩

/-- A document that was read from the text of a file has joined texts, and each name once. -/
theorem proper_of_document {t : Text} {j : Json} (ht : Scalar t) (h : document t = .ok j) :
    Proper j := by
  unfold document at h
  dsimp only at h
  split at h
  · cases h
  obtain ⟨⟨value, after⟩, hvalue, h⟩ := bind_eq_ok.mp h
  obtain ⟨-, rfl⟩ := ite_eq_ok.mp h
  exact ((sound_of_reads _).1 _ (ht.suffix (suffix_skipSpace ⟨0, t⟩)) _ _ hvalue).1

end Json

end LedgerWire
