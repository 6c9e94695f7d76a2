import LedgerWire.Proofs.Json.Number
import LedgerWire.Proofs.Json.Reader
import LedgerWire.Proofs.Json.String

/-!
# The text of a document

The text of a list or an object as the reader meets it: the first part, and then the others up to the
bracket that closes them. A document begins with something that is no blank, and is written in the
visible characters of ASCII, blanks and new lines.
-/

namespace LedgerWire

namespace Json

/-! ### Parts and brackets -/

theorem isSpace_lineBreak (level : Nat) : ∀ c ∈ lineBreak level, isSpace c := by
  intro c hc
  rcases List.mem_cons.mp hc with rfl | hc
  · rfl
  · rw [List.eq_of_mem_replicate hc]
    rfl

theorem skipSpace_lineBreak {t : Text} (ht : NoSpace t) (level position : Nat) : ∃ next,
    Cursor.skipSpace ⟨position, lineBreak level ++ t⟩ = ⟨next, t⟩ :=
  ⟨_, skipSpace_append _ (isSpace_lineBreak level) ht position⟩

/-- What stands in the line after a comma or a bracket. -/
theorem skipSpace_after {t : Text} (ht : NoSpace t) (c : CodePoint) (level position : Nat) : ∃ next,
    (Cursor.advance ⟨position, c :: (lineBreak level ++ t)⟩ 1).skipSpace = ⟨next, t⟩ :=
  skipSpace_lineBreak ht level (position + 1)

theorem separated_cons (sep part : Text) (parts : List Text) :
    Text.separated sep (part :: parts) = part ++ parts.flatMap (sep ++ ·) := by
  induction parts generalizing part with
  | nil => exact (List.append_nil _).symm
  | cons part' parts ih =>
    rw [Text.separated, ih part', List.flatMap_cons, List.append_assoc, List.append_assoc]
    exact List.cons_ne_nil _ _

/-- The text after the first of several parts, up to the bracket that closes them. -/
def closing (level : Nat) (parts : List Text) (bracket : CodePoint) : Text :=
  parts.flatMap (Text.ofString "," ++ ·) ++ (lineBreak level ++ [bracket])

theorem closing_cons (level : Nat) (part : Text) (parts : List Text) (bracket : CodePoint) :
    closing level (part :: parts) bracket =
      CodePoint.ofChar ',' :: (part ++ closing level parts bracket) := by
  rw [closing, List.flatMap_cons, List.append_assoc, List.append_assoc]
  rfl

theorem closes_closing (level : Nat) (parts : List Text) (bracket : CodePoint) (rest : Text) :
    Closes (closing level parts bracket ++ rest) := by
  cases parts with
  | nil =>
    rintro c ⟨⟩
    exact .inr rfl
  | cons part parts =>
    rw [closing_cons]
    rintro c ⟨⟩
    exact .inl rfl

theorem length_closing (level : Nat) (parts : List Text) (bracket : CodePoint) :
    1 < (closing level parts bracket).length := by
  rw [closing, List.length_append, List.length_append, lineBreak, List.length_cons,
    List.length_singleton]
  omega

/-- The bracket stands in its own line. -/
theorem skipSpace_closing_nil (bracket : CodePoint) (hbracket : isSpace bracket = false)
    (level position : Nat) (rest : Text) : ∃ next,
      Cursor.skipSpace ⟨position, closing level [] bracket ++ rest⟩ = ⟨next, bracket :: rest⟩ := by
  rw [closing, List.flatMap_nil, List.nil_append, List.append_assoc]
  refine skipSpace_lineBreak ?_ level position
  rintro _ ⟨⟩
  exact hbracket

/-- After a comma comes the next part, in its own line. -/
theorem skipSpace_closing_cons {part rest : Text} {parts : List Text} {bracket : CodePoint}
    {level : Nat} (hpart : NoSpace (part ++ (closing level parts bracket ++ rest)))
    (inner position : Nat) :
    let after := Cursor.skipSpace
      ⟨position, closing level ((lineBreak inner ++ part) :: parts) bracket ++ rest⟩
    after.isAt ',' ∧ ∃ next, (after.advance 1).skipSpace =
      ⟨next, part ++ (closing level parts bracket ++ rest)⟩ := by
  rw [closing_cons, List.cons_append, List.append_assoc, List.append_assoc,
    skipSpace_none (by rintro _ ⟨⟩; rfl)]
  exact ⟨beq_self_eq_true _, skipSpace_after hpart _ inner position⟩

def memberText (level : Nat) (member : Text × Json) : Text :=
  renderString member.1 ++ (CodePoint.ofChar ':' :: CodePoint.ofChar ' ' :: renderAt level member.2)

theorem renderMembers_cons (level : Nat) (member : Text × Json) (members : List (Text × Json)) :
    renderMembers level (member :: members) =
      (lineBreak level ++ memberText level member) :: renderMembers level members := by
  rw [renderMembers, memberText]
  simp only [Text.join, List.flatten_cons, List.flatten_nil, List.append_nil]
  rfl

theorem renderAt_list (level : Nat) (item : Json) (items : List Json) :
    renderAt level (.list (item :: items)) = CodePoint.ofChar '[' :: (lineBreak (level + 1) ++
      (renderAt (level + 1) item ++
        closing level (renderItems (level + 1) items) (CodePoint.ofChar ']'))) := by
  rw [renderAt, renderItems, separated_cons, closing]
  · simp only [Text.join, List.flatten_cons, List.flatten_nil, List.append_nil, List.append_assoc]
    rfl
  · exact List.cons_ne_nil _ _

theorem renderAt_object (level : Nat) (member : Text × Json) (members : List (Text × Json)) :
    renderAt level (.object (member :: members)) = CodePoint.ofChar '\x7b' ::
      (lineBreak (level + 1) ++ (memberText (level + 1) member ++
        closing level (renderMembers (level + 1) members) (CodePoint.ofChar '\x7d'))) := by
  rw [renderAt, renderMembers_cons, separated_cons, closing]
  · simp only [Text.join, List.flatten_cons, List.flatten_nil, List.append_nil, List.append_assoc]
    rfl
  · exact List.cons_ne_nil _ _

/-! ### Beginnings -/

theorem NumberText.exists_head (n : NumberText) : ∃ c t, n.text = c :: t ∧ isSpace c = false ∧
    c ≠ CodePoint.ofChar ']' := by
  obtain ⟨d, t, hd, h⟩ := n.exists_digit []
  rw [List.append_nil] at h
  rcases h with h | h
  · refine ⟨d, t, h, ?_, ?_⟩
    · simp only [isDigit, Bool.and_eq_true, decide_eq_true_eq] at hd
      simp only [isSpace, Bool.or_eq_false_iff, beq_eq_false_iff_ne]
      omega
    · rintro rfl
      cases hd
  · exact ⟨_, _, h, rfl, by decide⟩

/-- A document begins with something that is neither a blank nor the end of a list. -/
theorem exists_head (level : Nat) (j : Json) : ∃ c t, renderAt level j = c :: t ∧
    isSpace c = false ∧ c ≠ CodePoint.ofChar ']' := by
  cases j with
  | null => exact ⟨_, _, by rw [renderAt]; rfl, rfl, by decide⟩
  | bool b => cases b <;> exact ⟨_, _, by rw [renderAt]; rfl, rfl, by decide⟩
  | int n =>
    rw [renderAt, ← NumberText.text_ofInt]
    exact NumberText.exists_head _
  | float x =>
    rw [renderAt]
    cases x with
    | nan => exact ⟨_, _, rfl, rfl, by decide⟩
    | infinite negative => cases negative <;> exact ⟨_, _, rfl, rfl, by decide⟩
    | finite x =>
      obtain ⟨n, htext, -⟩ := NumberText.exists_finite x
      rw [← htext]
      exact n.exists_head
  | text t => exact ⟨_, _, by rw [renderAt]; rfl, rfl, by decide⟩
  | list items =>
    cases items with
    | nil => exact ⟨_, _, by rw [renderAt]; rfl, rfl, by decide⟩
    | cons item items => exact ⟨_, _, renderAt_list level item items, rfl, by decide⟩
  | object members =>
    cases members with
    | nil => exact ⟨_, _, by rw [renderAt]; rfl, rfl, by decide⟩
    | cons member members => exact ⟨_, _, renderAt_object level member members, rfl, by decide⟩

theorem noSpace_renderAt (level : Nat) (j : Json) (rest : Text) :
    NoSpace (renderAt level j ++ rest) := by
  obtain ⟨c, t, htext, hc, -⟩ := exists_head level j
  rw [htext]
  rintro _ ⟨⟩
  exact hc

theorem isAt_renderAt (level : Nat) (j : Json) (position : Nat) (rest : Text) :
    Cursor.isAt ⟨position, renderAt level j ++ rest⟩ ']' = false := by
  obtain ⟨c, t, htext, -, hc⟩ := exists_head level j
  rw [htext]
  exact beq_eq_false_iff_ne.mpr fun he => hc (Option.some.inj he)

/-! ### Characters -/

/-- A visible character of ASCII, a blank or a new line. -/
def Plain (c : CodePoint) : Prop := c.val = 0x0A ∨ 0x20 ≤ c.val ∧ c.val ≤ 0x7E

instance (c : CodePoint) : Decidable (Plain c) := inferInstanceAs (Decidable (_ ∨ _))

def AllPlain (t : Text) : Prop := ∀ c ∈ t, Plain c

instance (t : Text) : Decidable (AllPlain t) := List.decidableBAll Plain t

theorem AllPlain.append {s t : Text} (hs : AllPlain s) (ht : AllPlain t) : AllPlain (s ++ t) :=
  fun c hc => (List.mem_append.mp hc).elim (hs c) (ht c)

theorem AllPlain.cons {c : CodePoint} {t : Text} (hc : Plain c) (ht : AllPlain t) : AllPlain (c :: t) :=
  List.forall_mem_cons.mpr ⟨hc, ht⟩

theorem allPlain_nil : AllPlain [] := List.forall_mem_nil _

theorem AllDigits.allPlain {ds : Text} (h : AllDigits ds) : AllPlain ds := fun d hd => by
  have hdigit := h d hd
  simp only [isDigit, Bool.and_eq_true, decide_eq_true_eq] at hdigit
  exact .inr (by omega)

theorem allPlain_lineBreak (level : Nat) : AllPlain (lineBreak level) := by
  refine .cons (by decide) fun c hc => ?_
  rw [List.eq_of_mem_replicate hc]
  decide

theorem allPlain_flatMap {α : Type} {parts : List α} {f : α → Text}
    (h : ∀ part ∈ parts, AllPlain (f part)) : AllPlain (parts.flatMap f) := fun c hc => by
  obtain ⟨part, hpart, hc⟩ := List.mem_flatMap.mp hc
  exact h part hpart c hc

theorem allPlain_closing (level : Nat) {parts : List Text} {bracket : CodePoint}
    (hparts : ∀ part ∈ parts, AllPlain part) (hbracket : Plain bracket) :
    AllPlain (closing level parts bracket) :=
  (allPlain_flatMap fun part hpart => .cons (by decide) (hparts part hpart)).append
    ((allPlain_lineBreak level).append (.cons hbracket allPlain_nil))

theorem NumberText.allPlain (n : NumberText) : AllPlain n.text := by
  have hsign : AllPlain (sign n.negative) := by
    cases n.negative <;> decide
  have hfraction : AllPlain n.fractionText := by
    unfold fractionText
    split
    · exact allPlain_nil
    · exact .cons (by decide) n.allDigits_fraction.allPlain
  have hpower : AllPlain n.powerText := by
    unfold powerText
    split
    · exact allPlain_nil
    · next negative digits h =>
      refine .cons (by decide) (.cons ?_ (n.power_digits _ h).2.allPlain)
      cases negative <;> decide
  exact hsign.append (n.isWhole.digits.allPlain.append (hfraction.append hpower))

theorem allPlain_hexDigits (width n : Nat) : AllPlain (Text.hexDigits width n) := by
  have hdigit : ∀ d < 16, Plain (Text.hexDigit d) := by decide
  induction width generalizing n with
  | zero => exact allPlain_nil
  | succ width ih => exact (ih _).append (.cons (hdigit _ (Nat.mod_lt _ (by decide))) allPlain_nil)

theorem allPlain_unitEscape (n : Nat) : AllPlain (unitEscape n) :=
  .append (by decide) (allPlain_hexDigits 4 n)

theorem allPlain_stringPart (c : CodePoint) : AllPlain (stringPart c) := by
  unfold stringPart
  dsimp only
  split_ifs with h1 h2 h3 h4 h5 h6 h7 h8
  all_goals first
    | decide
    | exact .cons (.inr h8) allPlain_nil
    | exact allPlain_unitEscape _
    | exact (allPlain_unitEscape _).append (allPlain_unitEscape _)

theorem allPlain_renderString (t : Text) : AllPlain (renderString t) :=
  .append (.cons (by decide) (allPlain_flatMap fun c _ => allPlain_stringPart c))
    (.cons (by decide) allPlain_nil)

theorem allPlain_renderFloat (x : Binary64) : AllPlain (renderFloat x) := by
  cases x with
  | nan => decide
  | infinite negative => cases negative <;> decide
  | finite x =>
    obtain ⟨n, htext, -⟩ := NumberText.exists_finite x
    rw [← htext]
    exact n.allPlain

theorem allPlain_memberText {level : Nat} {member : Text × Json}
    (h : AllPlain (renderAt level member.2)) : AllPlain (memberText level member) :=
  (allPlain_renderString _).append (.cons (by decide) (.cons (by decide) h))

mutual

theorem allPlain_renderAt : ∀ (level : Nat) (j : Json), AllPlain (renderAt level j)
  | level, .null => by rw [renderAt]; decide
  | level, .bool b => by rw [renderAt]; cases b <;> decide
  | level, .int n => by
    rw [renderAt, ← NumberText.text_ofInt]
    exact NumberText.allPlain _
  | level, .float x => by
    rw [renderAt]
    exact allPlain_renderFloat x
  | level, .text t => by
    rw [renderAt]
    exact allPlain_renderString t
  | level, .list [] => by rw [renderAt]; decide
  | level, .list (item :: items) => by
    rw [renderAt_list]
    exact .cons (by decide) ((allPlain_lineBreak _).append ((allPlain_renderAt (level + 1) item).append
      (allPlain_closing level (allPlain_renderItems (level + 1) items) (by decide))))
  | level, .object [] => by rw [renderAt]; decide
  | level, .object ((name, value) :: members) => by
    rw [renderAt_object]
    exact .cons (by decide) ((allPlain_lineBreak _).append
      ((allPlain_memberText (allPlain_renderAt (level + 1) value)).append
        (allPlain_closing level (allPlain_renderMembers (level + 1) members) (by decide))))

theorem allPlain_renderItems : ∀ (level : Nat) (items : List Json),
    ∀ part ∈ renderItems level items, AllPlain part
  | _, [] => List.forall_mem_nil _
  | level, item :: items => by
    rw [renderItems]
    exact List.forall_mem_cons.mpr ⟨(allPlain_lineBreak level).append (allPlain_renderAt level item),
      allPlain_renderItems level items⟩

theorem allPlain_renderMembers : ∀ (level : Nat) (members : List (Text × Json)),
    ∀ part ∈ renderMembers level members, AllPlain part
  | _, [] => List.forall_mem_nil _
  | level, (name, value) :: members => by
    rw [renderMembers_cons]
    exact List.forall_mem_cons.mpr ⟨(allPlain_lineBreak level).append
      (allPlain_memberText (allPlain_renderAt level value)), allPlain_renderMembers level members⟩

end

end Json

end LedgerWire
