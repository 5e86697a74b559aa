import Dwhbll.Dns.Format
import Dwhbll.Lib.Lists
import Dwhbll.Lib.Splitting
import Dwhbll.Tokenizer.Basic

/-!
# Names as text

`Domain::parse` logs a malformed label and goes on with the labels before it, and behind a label it stops at any
character that is not a dot.
-/

namespace Dwhbll.Network.Dns.Domain

open Tokenizer (CType)

/-! ## Reading -/

inductive ParseErrors where
  /-- Label start is not a letter -/
  | invalidLabelStart
  /-- Label end is not a letter or digit. -/
  | invalidLabelEnd
  deriving DecidableEq

/-- `domain[i]`, which is NUL behind the last character. -/
def charAt (domain : List UInt8) (i : Nat) : UInt8 := domain.getD i 0

def isalnum (ct : CType) (c : UInt8) : Bool := ct.isalpha c || ct.isdigit c

def inLabel (ct : CType) (c : UInt8) : Bool := isalnum ct c || c == 0x2D

/-- The loop also ends at the NUL behind the last character, which is not in a label. -/
def tryParseLabel (ct : CType) (domain : List UInt8) (start : Nat) : Except ParseErrors (List UInt8) × Nat :=
  let result := (domain.drop start).takeWhile (inLabel ct)
  let start := start + result.length
  if result ≠ [] ∧ ¬ ct.isalpha (result.headD 0) then (.error .invalidLabelStart, start)
  else if result ≠ [] ∧ ¬ isalnum ct (result.getLastD 0) then (.error .invalidLabelEnd, start)
  else (.ok result, start)

theorem length_le_tryParseLabel (ct : CType) (domain : List UInt8) (start : Nat) :
    start ≤ (tryParseLabel ct domain start).2 := by
  dsimp only [tryParseLabel]
  split
  · exact Nat.le_add_right ..
  split <;> exact Nat.le_add_right ..

theorem lt_of_charAt {domain : List UInt8} {i : Nat} (h : charAt domain i ≠ 0) : i < domain.length := by
  by_contra hge
  rw [charAt, List.getD_eq_getElem?_getD, List.getElem?_eq_none (by omega)] at h
  exact h rfl

/-- The loop of `parse`. An error ends it, and is only logged behind it. -/
def parseLoop (ct : CType) (domain : List UInt8) (ind : Nat) : List (List UInt8) :=
  match (tryParseLabel ct domain ind).1 with
  | .error _ => []
  | .ok subd =>
      if subd = [] then [[]]
      else if hdot : charAt domain (tryParseLabel ct domain ind).2 = 0x2E then
        subd :: parseLoop ct domain ((tryParseLabel ct domain ind).2 + 1)
      else [subd]
termination_by domain.length - ind
decreasing_by
  have hle := length_le_tryParseLabel ct domain ind
  have hlt := lt_of_charAt (by rw [hdot]; decide)
  omega

def parse (ct : CType) (domain : List UInt8) : Domain :=
  if domain = [] ∨ domain = [0x20] then ⟨[[]]⟩
  else
    let labels := parseLoop ct domain 0
    if domain.getLast? = some 0x2E then ⟨labels⟩ else ⟨labels ++ [[]]⟩

def toString (d : Domain) : List UInt8 :=
  d.labels.flatMap fun label => if label = [] then [] else label ++ [0x2E]

variable {ct : CType} {domain lab rest : List UInt8} {labels : List (List UInt8)} {ind : Nat}

/-! ## Labels -/

/-- A label of letters, digits and hyphens that starts with a letter and does not end in a hyphen. -/
structure IsLabel (ct : CType) (lab : List UInt8) : Prop where
  ne_nil : lab ≠ []
  letter : ct.isalpha (lab.headD 0)
  last : isalnum ct (lab.getLastD 0)
  chars : ∀ c ∈ lab, inLabel ct c

/-- What is a label of ASCII characters is a label in every locale. -/
theorem IsLabel.of_ascii (ct : CType) (h : IsLabel .c lab) : IsLabel ct lab := by
  have hletter : ∀ c, CType.c.isalpha c → ct.isalpha c := by
    intro c hc
    have hlt : c < 0x80 := by
      simp only [CType.c, Bool.or_eq_true, Bool.and_eq_true, decide_eq_true_eq] at hc
      exact hc.elim (fun h => UInt8.lt_of_le_of_lt h.2 (by decide)) fun h => UInt8.lt_of_le_of_lt h.2 (by decide)
    rw [ct.isalpha_ascii c hlt]
    exact hc
  have hdigit : ∀ c, CType.c.isdigit c → ct.isdigit c := by
    intro c hc
    have hlt : c < 0x80 := by
      simp only [CType.c, Bool.and_eq_true, decide_eq_true_eq] at hc
      exact UInt8.lt_of_le_of_lt hc.2 (by decide)
    rw [ct.isdigit_ascii c hlt]
    exact hc
  have halnum : ∀ c, isalnum .c c → isalnum ct c := by
    intro c hc
    rw [isalnum, Bool.or_eq_true] at hc ⊢
    exact hc.imp (hletter c) (hdigit c)
  refine ⟨h.ne_nil, hletter _ h.letter, halnum _ h.last, fun c hc => ?_⟩
  have hin := h.chars c hc
  rw [inLabel, Bool.or_eq_true] at hin ⊢
  exact hin.imp_left (halnum c)

theorem tryParseLabel_of_label (hdrop : domain.drop ind = lab ++ rest) (hlab : IsLabel ct lab)
    (hrest : ∀ c ∈ rest.head?, inLabel ct c = false) : tryParseLabel ct domain ind = (.ok lab, ind + lab.length) := by
  have htake : (domain.drop ind).takeWhile (inLabel ct) = lab := by
    rw [hdrop, List.takeWhile_append_of_pos hlab.chars]
    cases rest with
    | nil => exact List.append_nil lab
    | cons c rest => rw [List.takeWhile_cons_of_neg (by rw [hrest c rfl]; nofun), List.append_nil]
  simp only [tryParseLabel, htake]
  rw [if_neg fun h => h.2 hlab.letter, if_neg fun h => h.2 hlab.last]

/-- A label that has been read is empty or well formed. -/
theorem isLabel_of_tryParseLabel (h : (tryParseLabel ct domain ind).1 = .ok lab) : lab = [] ∨ IsLabel ct lab := by
  dsimp only [tryParseLabel] at h
  split at h
  · cases h
  split at h
  · cases h
  rename_i hstart hend
  cases h
  refine or_iff_not_imp_left.mpr fun hne => ⟨hne, ?_, ?_, fun c hc => List.mem_takeWhile_imp hc⟩
  · exact not_not.mp fun h => hstart ⟨hne, h⟩
  · exact not_not.mp fun h => hend ⟨hne, h⟩

theorem isLabel_of_parseLoop (h : lab ∈ parseLoop ct domain ind) : lab = [] ∨ IsLabel ct lab := by
  fun_induction parseLoop ct domain ind with
  | case1 => cases h
  | case2 => exact .inl (List.mem_singleton.mp h)
  | case3 ind subd hsubd hne hdot ih =>
      rcases List.mem_cons.mp h with rfl | h
      · exact isLabel_of_tryParseLabel hsubd
      · exact ih h
  | case4 ind subd hsubd hne hdot =>
      rw [List.mem_singleton.mp h]
      exact isLabel_of_tryParseLabel hsubd

/-! ## Names -/

theorem inLabel_dot : inLabel ct 0x2E = false := by
  rw [inLabel, isalnum, ct.isalpha_ascii _ (by decide), ct.isdigit_ascii _ (by decide)]
  decide

theorem inLabel_space : inLabel ct 0x20 = false := by
  rw [inLabel, isalnum, ct.isalpha_ascii _ (by decide), ct.isdigit_ascii _ (by decide)]
  decide

theorem parseLoop_empty (hdrop : domain.drop ind = []) : parseLoop ct domain ind = [[]] := by
  have hparse : (tryParseLabel ct domain ind).1 = .ok [] := by simp [tryParseLabel, hdrop]
  rw [parseLoop, hparse]
  rfl

theorem parseLoop_last (hlab : IsLabel ct lab) (hdrop : domain.drop ind = lab) : parseLoop ct domain ind = [lab] := by
  rw [← List.append_nil lab] at hdrop
  have hend : charAt domain (ind + lab.length) = 0 := by
    rw [charAt, List.getD_eq_getElem?_getD, List.getElem?_eq_none, Option.getD_none]
    exact List.drop_eq_nil_iff.mp (Lists.drop_add_of_drop hdrop)
  rw [parseLoop, tryParseLabel_of_label hdrop hlab (by simp)]
  simp only [hlab.ne_nil, ↓reduceIte, hend]
  rfl

theorem parseLoop_dot (hlab : IsLabel ct lab) (hdrop : domain.drop ind = lab ++ 0x2E :: rest) :
    domain.drop (ind + lab.length + 1) = rest ∧
      parseLoop ct domain ind = lab :: parseLoop ct domain (ind + lab.length + 1) := by
  have hrest := Lists.drop_add_of_drop hdrop
  have hdot : charAt domain (ind + lab.length) = 0x2E := by
    rw [charAt, List.getD_eq_getElem?_getD, Lists.getElem?_of_drop hrest, Option.getD_some]
  refine ⟨Lists.drop_succ_of_drop hrest, ?_⟩
  rw [parseLoop, tryParseLabel_of_label hdrop hlab fun c hc => Option.some.inj hc ▸ inLabel_dot]
  simp only [hlab.ne_nil, ↓reduceIte, ↓reduceDIte, hdot]

theorem toString_cons (hlab : IsLabel ct lab) (labels : List (List UInt8)) :
    toString ⟨lab :: labels⟩ = lab ++ 0x2E :: toString ⟨labels⟩ := by
  simp [toString, hlab.ne_nil]

/-- Labels with a dot behind each. -/
theorem parseLoop_of_toString (hlabels : ∀ l ∈ labels, IsLabel ct l) (hdrop : domain.drop ind = toString ⟨labels⟩) :
    parseLoop ct domain ind = labels ++ [[]] := by
  induction labels generalizing ind with
  | nil => exact parseLoop_empty hdrop
  | cons lab labels ih =>
      have hlab := hlabels lab List.mem_cons_self
      rw [toString_cons hlab] at hdrop
      obtain ⟨hrest, hparse⟩ := parseLoop_dot hlab hdrop
      rw [hparse, ih (fun l hl => hlabels l (List.mem_cons_of_mem lab hl)) hrest, List.cons_append]

/-- Labels with dots between them. -/
theorem parseLoop_of_intercalate (hne : labels ≠ []) (hlabels : ∀ l ∈ labels, IsLabel ct l)
    (hdrop : domain.drop ind = [0x2E].intercalate labels) : parseLoop ct domain ind = labels := by
  induction labels generalizing ind with
  | nil => exact absurd rfl hne
  | cons lab labels ih =>
      have hlab := hlabels lab List.mem_cons_self
      by_cases hnil : labels = []
      · rw [hnil, List.intercalate_singleton] at hdrop
        rw [hnil, parseLoop_last hlab hdrop]
      · rw [Splitting.intercalate_cons hnil] at hdrop
        obtain ⟨hrest, hparse⟩ := parseLoop_dot hlab hdrop
        rw [hparse, ih hnil (fun l hl => hlabels l (List.mem_cons_of_mem lab hl)) hrest]

theorem toString_eq_intercalate (hne : labels ≠ []) (hlabels : ∀ l ∈ labels, IsLabel ct l) :
    toString ⟨labels⟩ = [0x2E].intercalate labels ++ [0x2E] := by
  induction labels with
  | nil => exact absurd rfl hne
  | cons lab labels ih =>
      have hlab := hlabels lab List.mem_cons_self
      rw [toString_cons hlab]
      by_cases hnil : labels = []
      · rw [hnil, List.intercalate_singleton]
        rfl
      · rw [ih hnil fun l hl => hlabels l (List.mem_cons_of_mem lab hl), Splitting.intercalate_cons hnil]
        simp

theorem IsLabel.getLast? (h : IsLabel ct lab) : ∃ c, lab.getLast? = some c ∧ inLabel ct c :=
  ⟨_, List.getLast?_eq_some_getLast h.ne_nil, h.chars _ (List.getLast_mem h.ne_nil)⟩

theorem getLast?_intercalate (hne : labels ≠ []) (hlabels : ∀ l ∈ labels, IsLabel ct l) :
    ∃ c, ([0x2E].intercalate labels).getLast? = some c ∧ inLabel ct c := by
  induction labels with
  | nil => exact absurd rfl hne
  | cons lab labels ih =>
      by_cases hnil : labels = []
      · rw [hnil, List.intercalate_singleton]
        exact (hlabels lab List.mem_cons_self).getLast?
      · obtain ⟨c, hc, hin⟩ := ih hnil fun l hl => hlabels l (List.mem_cons_of_mem lab hl)
        refine ⟨c, ?_, hin⟩
        rw [Splitting.intercalate_cons hnil, List.getLast?_append, List.getLast?_append, hc]
        rfl

theorem parse_intercalate (hne : labels ≠ []) (hlabels : ∀ l ∈ labels, IsLabel ct l) :
    parse ct ([0x2E].intercalate labels) = ⟨labels ++ [[]]⟩ := by
  obtain ⟨c, hlast, hin⟩ := getLast?_intercalate hne hlabels
  have hother : ∀ b, inLabel ct b = false → ([0x2E].intercalate labels).getLast? ≠ some b := by
    intro b hb h
    rw [hlast, Option.some.injEq] at h
    rw [h, hb] at hin
    cases hin
  rw [parse, if_neg, parseLoop_of_intercalate hne hlabels List.drop_zero, if_neg (hother _ inLabel_dot)]
  rintro (h | h)
  · rw [h] at hlast
    cases hlast
  · exact hother 0x20 inLabel_space (by rw [h]; rfl)

theorem parse_toString_of_labels (hlabels : ∀ l ∈ labels, IsLabel ct l) :
    parse ct (toString ⟨labels⟩) = ⟨labels ++ [[]]⟩ := by
  by_cases hnil : labels = []
  · rw [hnil]
    rfl
  · have htext := toString_eq_intercalate hnil hlabels
    rw [parse, if_neg, parseLoop_of_toString hlabels List.drop_zero, if_pos]
    · rw [htext, List.getLast?_concat]
    · rw [htext]
      rintro (h | h)
      · simp at h
      · have hlast := congrArg List.getLast? h
        rw [List.getLast?_concat] at hlast
        exact absurd hlast (by decide)

theorem toString_concat_nil (labels : List (List UInt8)) : toString ⟨labels ++ [[]]⟩ = toString ⟨labels⟩ := by
  simp [toString]

/-! ## Round trip -/

/-- The name of these labels is read back from its text, with or without the last dot. -/
theorem parse_toString (ct : CType) (hlabels : ∀ l ∈ labels, IsLabel .c l) :
    parse ct (toString ⟨labels ++ [[]]⟩) = ⟨labels ++ [[]]⟩ ∧
      (labels ≠ [] → parse ct (toString ⟨labels ++ [[]]⟩).dropLast = ⟨labels ++ [[]]⟩) := by
  have hct : ∀ l ∈ labels, IsLabel ct l := fun l hl => (hlabels l hl).of_ascii ct
  rw [toString_concat_nil]
  refine ⟨parse_toString_of_labels hct, fun hne => ?_⟩
  rw [toString_eq_intercalate hne hct, List.dropLast_concat, parse_intercalate hne hct]

/-- The labels of `x-1.b`. -/
def twoLabels : List (List UInt8) := [[0x78, 0x2D, 0x31], [0x62]]

theorem isLabel_twoLabels : ∀ l ∈ twoLabels, IsLabel .c l := by
  intro l hl
  rcases List.mem_pair.mp hl with rfl | rfl
  · exact ⟨by decide, by decide, by decide, List.all_eq_true.mp (by decide)⟩
  · exact ⟨by decide, by decide, by decide, List.all_eq_true.mp (by decide)⟩

theorem parse_toString_two :
    parse .c (toString ⟨twoLabels ++ [[]]⟩) = ⟨twoLabels ++ [[]]⟩ ∧
      (twoLabels ≠ [] → parse .c (toString ⟨twoLabels ++ [[]]⟩).dropLast = ⟨twoLabels ++ [[]]⟩) :=
  parse_toString .c isLabel_twoLabels

/-! ## Texts that are not names -/

theorem isLabel_of_parse (h : lab ∈ (parse ct domain).labels) : lab = [] ∨ IsLabel ct lab := by
  dsimp only [parse] at h
  split at h
  · exact .inl (List.mem_singleton.mp h)
  split at h
  · exact isLabel_of_parseLoop h
  · rcases List.mem_append.mp h with h | h
    · exact isLabel_of_parseLoop h
    · exact .inl (List.mem_singleton.mp h)

theorem toString_filter (labels : List (List UInt8)) : toString ⟨labels.filter (· ≠ [])⟩ = toString ⟨labels⟩ := by
  induction labels with
  | nil => rfl
  | cons lab labels ih =>
      simp only [toString, List.flatMap_cons] at ih ⊢
      by_cases hnil : lab = []
      · rw [List.filter_cons_of_neg (by simp [hnil]), ih, if_pos hnil, List.nil_append]
      · rw [List.filter_cons_of_pos (by simp [hnil]), List.flatMap_cons, ih]

/-- The domain that is returned accounts for the whole text if and only if the text is a name. -/
theorem parse_accounts_iff (ct : CType) (hempty : domain ≠ []) :
    (toString (parse ct domain) = domain ∨ toString (parse ct domain) = domain ++ [0x2E]) ↔
      ∃ labels ≠ [], (∀ l ∈ labels, IsLabel ct l) ∧
        (domain = [0x2E].intercalate labels ∨ domain = [0x2E].intercalate labels ++ [0x2E]) := by
  constructor
  · intro h
    let labels := (parse ct domain).labels.filter (· ≠ [])
    have htext : toString ⟨labels⟩ = toString (parse ct domain) := toString_filter _
    have hlabels : ∀ l ∈ labels, IsLabel ct l := by
      intro l hl
      obtain ⟨hmem, hne⟩ := List.mem_filter.mp hl
      exact (isLabel_of_parse hmem).resolve_left (of_decide_eq_true hne)
    have hne : labels ≠ [] := by
      intro hnil
      rw [← htext, hnil] at h
      rcases h with h | h
      · exact hempty h.symm
      · exact List.append_ne_nil_of_right_ne_nil _ (by decide) h.symm
    rw [← htext, toString_eq_intercalate hne hlabels] at h
    refine ⟨labels, hne, hlabels, h.symm.imp (fun h => ?_) fun h => h.symm⟩
    exact (List.append_cancel_right h).symm
  · rintro ⟨labels, hne, hlabels, rfl | rfl⟩
    · right
      rw [parse_intercalate hne hlabels, toString_concat_nil, toString_eq_intercalate hne hlabels]
    · left
      rw [← toString_eq_intercalate hne hlabels, parse_toString_of_labels hlabels, toString_concat_nil]

theorem parse_accounts_iff_two :
    [0x2E].intercalate twoLabels ≠ [] ∧
      (toString (parse .c ([0x2E].intercalate twoLabels)) = [0x2E].intercalate twoLabels ∨
        toString (parse .c ([0x2E].intercalate twoLabels)) = [0x2E].intercalate twoLabels ++ [0x2E]) :=
  ⟨by decide, (parse_accounts_iff .c (by decide)).mpr ⟨twoLabels, by decide, isLabel_twoLabels, .inl rfl⟩⟩

/-- `a b` is read as the name `a`, which is as well formed as any. -/
theorem parse_stops :
    parse .c [0x61, 0x20, 0x62] = ⟨[[0x61], []]⟩ ∧ Plain ⟨[[0x61], []]⟩ ∧
      ¬ ∀ ct domain, domain ≠ [] → domain ≠ [0x20] → domain ≠ [0x2E] →
        toString (parse ct domain) = domain ∨ toString (parse ct domain) = domain ++ [0x2E] := by
  have hparse : parse .c [0x61, 0x20, 0x62] = ⟨[[0x61], []]⟩ := by
    have hloop : parseLoop .c [0x61, 0x20, 0x62] 0 = [[0x61]] := by
      rw [parseLoop]
      decide
    rw [parse, hloop]
    rfl
  refine ⟨hparse, ⟨⟨[[0x61]], rfl⟩, by decide⟩, fun h => ?_⟩
  have hall := h .c [0x61, 0x20, 0x62] (by decide) (by decide) (by decide)
  rw [hparse] at hall
  revert hall
  decide

end Dwhbll.Network.Dns.Domain
