import SolvedForm.LinearForm.Text
import SolvedForm.Proofs.LinearForm.Canonical
import SolvedForm.Proofs.Number.Decimal

/-!
# The text of a linear form determines the form

The text is a row of words with blanks between them (`toList_render`): the constant or the first term
with its sign, and then a sign and a term for each term that follows. No word holds a blank, so the
text determines the words, and each word determines what it was made from as long as the decimal
expansions in it end. Together: `text_eq_iff`.
-/

namespace SolvedForm.LinearForm

variable {p q : LinearForm} {nameOf : Var → String} {t u : Var × Rat} {c d : Rat}

/-- A term without its sign. -/
def unsignedTerm (nameOf : Var → String) (t : Var × Rat) : List Char :=
  (sizeText t.2).toList ++ (nameOf t.1).toList

/-- A term that starts the text. -/
def leadingWord (nameOf : Var → String) (t : Var × Rat) : List Char :=
  if t.2 < 0 then '-' :: unsignedTerm nameOf t else unsignedTerm nameOf t

/-- A term that follows other text. -/
def laterWords (nameOf : Var → String) (t : Var × Rat) : List (List Char) :=
  [[if t.2 < 0 then '-' else '+'], unsignedTerm nameOf t]

def words (nameOf : Var → String) (p : LinearForm) : List (List Char) :=
  if p.constant ≠ 0 ∨ p.isConstant then
    (Decimal.text p.constant).toList :: p.terms.toList.flatMap (laterWords nameOf)
  else
    match p.terms.toList with
    | [] => []
    | t :: terms => leadingWord nameOf t :: terms.flatMap (laterWords nameOf)

theorem toList_appendTerm_empty (nameOf : Var → String) (t : Var × Rat) :
    (appendTerm nameOf "" t).toList = leadingWord nameOf t := by
  unfold appendTerm joiner leadingWord unsignedTerm
  by_cases hneg : t.2 < 0
  · simp [hneg]
  · simp [hneg]

theorem toList_appendTerm {before : String} (h : before ≠ "") (t : Var × Rat) :
    (appendTerm nameOf before t).toList =
      before.toList ++ (laterWords nameOf t).flatMap (' ' :: ·) := by
  unfold appendTerm joiner laterWords unsignedTerm
  by_cases hneg : t.2 < 0
  · simp [h, hneg]
  · simp [h, hneg]

theorem appendTerm_ne_empty (hname : ∀ v, nameOf v ≠ "") (before : String) (t : Var × Rat) :
    appendTerm nameOf before t ≠ "" := by
  unfold appendTerm
  simp [hname]

theorem toList_foldl_appendTerm (hname : ∀ v, nameOf v ≠ "") (terms : List (Var × Rat))
    {before : String} (h : before ≠ "") :
    (terms.foldl (appendTerm nameOf) before).toList =
      before.toList ++ (terms.flatMap (laterWords nameOf)).flatMap (' ' :: ·) := by
  induction terms generalizing before with
  | nil => simp
  | cons t terms ih =>
    rw [List.foldl_cons, ih (appendTerm_ne_empty hname before t), toList_appendTerm h,
      List.flatMap_cons, List.flatMap_append, List.append_assoc]

theorem intercalate_cons_eq (w : List Char) (ws : List (List Char)) :
    [' '].intercalate (w :: ws) = w ++ ws.flatMap (' ' :: ·) := by
  induction ws generalizing w with
  | nil => simp
  | cons w' ws ih => rw [List.intercalate_cons_cons, ih, List.flatMap_cons]; simp

theorem toList_render (hname : ∀ v, nameOf v ≠ "") (p : LinearForm) :
    (p.render nameOf).toList = [' '].intercalate (p.words nameOf) := by
  unfold render words
  by_cases hshown : p.constant ≠ 0 ∨ p.isConstant
  · rw [if_pos hshown, if_pos hshown, intercalate_cons_eq]
    exact toList_foldl_appendTerm hname p.terms.toList (Decimal.text_ne_empty _)
  · rw [if_neg hshown, if_neg hshown]
    cases p.terms.toList with
    | nil => rfl
    | cons t terms =>
      rw [List.foldl_cons, toList_foldl_appendTerm hname terms (appendTerm_ne_empty hname "" t),
        toList_appendTerm_empty]
      exact (intercalate_cons_eq ..).symm

/-- A text starts with the constant, or else with a term. -/
theorem words_cases (nameOf : Var → String) (p : LinearForm) :
    p.words nameOf =
        (Decimal.text p.constant).toList :: p.terms.toList.flatMap (laterWords nameOf) ∨
      p.constant = 0 ∧ ∃ t terms, p.terms.toList = t :: terms ∧
        p.words nameOf = leadingWord nameOf t :: terms.flatMap (laterWords nameOf) := by
  unfold words
  split
  · exact .inl rfl
  · rename_i hhidden
    obtain ⟨hzero, hterms⟩ := not_or.mp hhidden
    rw [isConstant_iff] at hterms
    obtain ⟨t, terms, heq⟩ := List.exists_cons_of_ne_nil hterms
    rw [heq]
    exact .inr ⟨not_not.mp hzero, t, terms, rfl, rfl⟩

theorem toList_genericName (v : Var) : v.genericName.toList = 'x' :: '.' :: Nat.toDigits 10 v := by
  unfold Var.genericName Digits.natText
  simp

theorem genericName_ne_empty (v : Var) : v.genericName ≠ "" := by
  unfold Var.genericName
  simp

theorem unsignedTerm_eq (t : Var × Rat) : unsignedTerm Var.genericName t =
    (sizeText t.2).toList ++ 'x' :: '.' :: Nat.toDigits 10 t.1 := by
  rw [unsignedTerm, toList_genericName]

theorem mem_sizeText {x : Char} (h : x ∈ (sizeText c).toList) : x.isDigit ∨ x = '.' := by
  unfold sizeText at h
  split at h
  · simp at h
  · exact (Decimal.isUnsigned_text Rat.abs_nonneg).mem h

theorem mem_unsignedTerm {x : Char} (h : x ∈ unsignedTerm Var.genericName t) :
    x.isDigit ∨ x = '.' ∨ x = 'x' := by
  rw [unsignedTerm_eq] at h
  rcases List.mem_append.mp h with h | h
  · exact (mem_sizeText h).imp id .inl
  rcases List.mem_cons.mp h with rfl | h
  · exact .inr (.inr rfl)
  rcases List.mem_cons.mp h with rfl | h
  · exact .inr (.inl rfl)
  · exact .inl (Digits.isDigit_of_mem_toDigits x h)

theorem blank_not_mem_words {w : List Char} (hw : w ∈ p.words Var.genericName) : ' ' ∉ w := by
  have hterm (t : Var × Rat) : ' ' ∉ unsignedTerm Var.genericName t := fun h => by
    simpa using mem_unsignedTerm h
  have hlater (t : Var × Rat) : ∀ w ∈ laterWords Var.genericName t, ' ' ∉ w := by
    unfold laterWords
    by_cases hneg : t.2 < 0
    · simp [hneg, hterm t]
    · simp [hneg, hterm t]
  have hleading (t : Var × Rat) : ' ' ∉ leadingWord Var.genericName t := by
    unfold leadingWord
    by_cases hneg : t.2 < 0
    · simp [hneg, hterm t]
    · simp [hneg, hterm t]
  rcases words_cases Var.genericName p with hwords | ⟨-, t, terms, -, hwords⟩
  · rw [hwords] at hw
    rcases List.mem_cons.mp hw with rfl | hw
    · intro h
      simpa using (Decimal.isNotation_text _).mem h
    · obtain ⟨t, -, hw⟩ := List.mem_flatMap.mp hw
      exact hlater t w hw
  · rw [hwords] at hw
    rcases List.mem_cons.mp hw with rfl | hw
    · exact hleading t
    · obtain ⟨t, -, hw⟩ := List.mem_flatMap.mp hw
      exact hlater t w hw

theorem words_ne_nil (nameOf : Var → String) (p : LinearForm) : p.words nameOf ≠ [] := by
  rcases words_cases nameOf p with h | ⟨-, t, terms, -, h⟩
  · simp [h]
  · simp [h]

theorem words_eq_of_text_eq (h : p.text = q.text) :
    p.words Var.genericName = q.words Var.genericName := by
  have hsplit (p : LinearForm) : p.text.toList.splitOn ' ' = p.words Var.genericName := by
    rw [text, toList_render genericName_ne_empty]
    exact List.splitOn_intercalate ' ' (fun w hw => blank_not_mem_words hw) (words_ne_nil _ p)
  rw [← hsplit p, h, hsplit q]

/-! ### What the words say -/

/-- All decimal expansions in the form end. -/
def Terminates (p : LinearForm) : Prop :=
  Decimal.Terminates p.constant ∧ ∀ t ∈ p.terms.toList, Decimal.Terminates t.2

theorem abs_eq_of_sizeText_eq (hc : Decimal.Terminates c) (hd : Decimal.Terminates d)
    (h : sizeText c = sizeText d) : c.abs = d.abs := by
  unfold sizeText at h
  by_cases hc1 : c.abs = 1
  · by_cases hd1 : d.abs = 1
    · rw [hc1, hd1]
    · rw [if_pos hc1, if_neg hd1] at h
      exact absurd h.symm (Decimal.text_ne_empty _)
  · by_cases hd1 : d.abs = 1
    · rw [if_neg hc1, if_pos hd1] at h
      exact absurd h (Decimal.text_ne_empty _)
    · rw [if_neg hc1, if_neg hd1] at h
      exact Decimal.eq_of_text_eq hc.abs hd.abs h

theorem eq_of_abs_eq (h : c.abs = d.abs) (hneg : c < 0 ↔ d < 0) : c = d := by
  by_cases hc : c < 0
  · rw [Rat.abs_of_nonpos hc.le, Rat.abs_of_nonpos (hneg.mp hc).le] at h
    exact neg_inj.mp h
  · have hd : ¬d < 0 := fun hd => hc (hneg.mpr hd)
    rwa [Rat.abs_of_nonneg (not_lt.mp hc), Rat.abs_of_nonneg (not_lt.mp hd)] at h

/-- The size of a term ends where the name begins. -/
theorem eq_of_unsignedTerm_eq (ht : Decimal.Terminates t.2) (hu : Decimal.Terminates u.2)
    (hneg : t.2 < 0 ↔ u.2 < 0)
    (h : unsignedTerm Var.genericName t = unsignedTerm Var.genericName u) : t = u := by
  have hsize : 'x' ∉ (sizeText t.2).toList := fun hx => by
    simpa using mem_sizeText hx
  have hname : 'x' ∉ '.' :: Nat.toDigits 10 t.1 := fun hx => by
    rcases List.mem_cons.mp hx with hx | hx
    · simp at hx
    · simpa using Digits.isDigit_of_mem_toDigits _ hx
  rw [unsignedTerm_eq, unsignedTerm_eq, List.append_cons_inj_of_notMem hsize hname] at h
  obtain ⟨hsizes, -, hdigits⟩ := h
  have habs := abs_eq_of_sizeText_eq ht hu (String.toList_injective hsizes)
  have hvar := Digits.eq_of_toDigits_eq ((List.cons_inj_right _).mp hdigits)
  exact Prod.ext hvar (eq_of_abs_eq habs hneg)

theorem eq_of_laterWords_eq (ht : Decimal.Terminates t.2) (hu : Decimal.Terminates u.2)
    (h : laterWords Var.genericName t = laterWords Var.genericName u) : t = u := by
  simp only [laterWords, List.cons.injEq, and_true] at h
  obtain ⟨hsign, hterm⟩ := h
  refine eq_of_unsignedTerm_eq ht hu ?_ hterm
  by_cases hneg : t.2 < 0
  · by_cases hneg' : u.2 < 0
    · simp [hneg, hneg']
    · simp [hneg, hneg'] at hsign
  · by_cases hneg' : u.2 < 0
    · simp [hneg, hneg'] at hsign
    · simp [hneg, hneg']

theorem eq_of_leadingWord_eq (ht : Decimal.Terminates t.2) (hu : Decimal.Terminates u.2)
    (h : leadingWord Var.genericName t = leadingWord Var.genericName u) : t = u := by
  have hminus (t : Var × Rat) : '-' ∉ unsignedTerm Var.genericName t := fun h => by
    simpa using mem_unsignedTerm h
  unfold leadingWord at h
  by_cases hneg : t.2 < 0
  · by_cases hneg' : u.2 < 0
    · rw [if_pos hneg, if_pos hneg'] at h
      exact eq_of_unsignedTerm_eq ht hu (iff_of_true hneg hneg') (List.cons.inj h).2
    · rw [if_pos hneg, if_neg hneg'] at h
      exact absurd (h ▸ List.mem_cons_self ..) (hminus u)
  · by_cases hneg' : u.2 < 0
    · rw [if_neg hneg, if_pos hneg'] at h
      exact absurd (h ▸ List.mem_cons_self ..) (hminus t)
    · rw [if_neg hneg, if_neg hneg'] at h
      exact eq_of_unsignedTerm_eq ht hu (iff_of_false hneg hneg') h

theorem eq_of_flatMap_laterWords_eq {terms rest : List (Var × Rat)}
    (ht : ∀ t ∈ terms, Decimal.Terminates t.2) (hr : ∀ t ∈ rest, Decimal.Terminates t.2)
    (h : terms.flatMap (laterWords Var.genericName) = rest.flatMap (laterWords Var.genericName)) :
    terms = rest := by
  induction terms generalizing rest with
  | nil =>
    cases rest with
    | nil => rfl
    | cons u rest => simp [laterWords] at h
  | cons t terms ih =>
    cases rest with
    | nil => simp [laterWords] at h
    | cons u rest =>
      obtain ⟨ht, hterms⟩ := List.forall_mem_cons.mp ht
      obtain ⟨hu, hrest⟩ := List.forall_mem_cons.mp hr
      rw [List.flatMap_cons, List.flatMap_cons] at h
      obtain ⟨hwords, htail⟩ := List.append_inj h rfl
      rw [eq_of_laterWords_eq ht hu hwords, ih hterms hrest htail]

/-- A constant is not mistaken for a term: only a term holds a name. -/
theorem text_ne_leadingWord (a : Rat) (t : Var × Rat) :
    (Decimal.text a).toList ≠ leadingWord Var.genericName t := by
  intro h
  have hmem : 'x' ∈ leadingWord Var.genericName t := by
    unfold leadingWord
    rw [unsignedTerm_eq]
    split <;> simp
  have := (Decimal.isNotation_text a).mem (h ▸ hmem)
  simp at this

theorem eq_of_words_eq (hp : p.Terminates) (hq : q.Terminates)
    (h : p.words Var.genericName = q.words Var.genericName) :
    p.constant = q.constant ∧ p.terms.toList = q.terms.toList := by
  rcases words_cases Var.genericName p with hp' | ⟨hpzero, t, terms, hpterms, hp'⟩
  · rcases words_cases Var.genericName q with hq' | ⟨-, u, rest, -, hq'⟩
    · rw [hp', hq'] at h
      obtain ⟨hconstant, hterms⟩ := List.cons.inj h
      exact ⟨Decimal.eq_of_text_eq hp.1 hq.1 (String.toList_injective hconstant),
        eq_of_flatMap_laterWords_eq hp.2 hq.2 hterms⟩
    · rw [hp', hq'] at h
      exact absurd (List.cons.inj h).1 (text_ne_leadingWord _ _)
  · rcases words_cases Var.genericName q with hq' | ⟨hqzero, u, rest, hqterms, hq'⟩
    · rw [hp', hq'] at h
      exact absurd (List.cons.inj h).1.symm (text_ne_leadingWord _ _)
    · rw [hp', hq'] at h
      obtain ⟨hleading, hlater⟩ := List.cons.inj h
      obtain ⟨ht, hterms⟩ := List.forall_mem_cons.mp (hpterms ▸ hp.2)
      obtain ⟨hu, hrest⟩ := List.forall_mem_cons.mp (hqterms ▸ hq.2)
      rw [hpzero, hqzero, hpterms, hqterms, eq_of_leadingWord_eq ht hu hleading,
        eq_of_flatMap_laterWords_eq hterms hrest hlater]
      exact ⟨rfl, rfl⟩

/-- The text says all of a form but its flag, as long as the decimal expansions in it end. -/
theorem text_eq_iff (hp : p.Terminates) (hq : q.Terminates) :
    p.text = q.text ↔ p.constant = q.constant ∧ p.terms = q.terms := by
  constructor
  · intro h
    obtain ⟨hconstant, hterms⟩ := eq_of_words_eq hp hq (words_eq_of_text_eq h)
    exact ⟨hconstant, congrArg Table.ofRows hterms⟩
  · rintro ⟨hconstant, hterms⟩
    unfold text render isConstant
    rw [hconstant, hterms]

/-- The text shows neither how a form was made nor that it is invalid. Another sign is another
text. -/
theorem text_eq_iff_invalidate :
    (ofTerms 0 [(12, -1 / 2), (1, 2)]).invalidate.text = (ofTerms 0 [(1, 2), (12, -1 / 2)]).text ∧
      (ofTerms 0 [(1, 2), (12, 1 / 2)]).text ≠ (ofTerms 0 [(1, 2), (12, -1 / 2)]).text := by
  have hends {p : LinearForm} (hconstant : p.constant.den ∣ 2 ^ 1 * 5 ^ 1)
      (hterms : ∀ t ∈ p.terms.toList, t.2.den ∣ 2 ^ 1 * 5 ^ 1) : p.Terminates :=
    ⟨Decimal.terminates_of_dvd hconstant, fun t ht => Decimal.terminates_of_dvd (hterms t ht)⟩
  constructor
  · exact (text_eq_iff (hends (by decide +kernel) (by decide +kernel))
      (hends (by decide +kernel) (by decide +kernel))).mpr (by decide +kernel)
  · intro h
    have hsame := (text_eq_iff (hends (by decide +kernel) (by decide +kernel))
      (hends (by decide +kernel) (by decide +kernel))).mp h
    exact absurd hsame (by decide +kernel)

end SolvedForm.LinearForm
