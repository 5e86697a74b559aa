import Dwhbll.Tokenizer.Lemmas.Branches

/-!
# Operators and punctuation

Two characters are taken for an operator by their hash. What is no operator and has the hash of one is taken for one too.
-/

namespace Dwhbll.Tokenizer

open Loops

variable {ct : CType} {source rest : Bytes} {cur : Cursor} {c d : UInt8} {fuel i : Nat} {p : UInt8 → Bool}
  {ops : List String}

/-! ## Where operators begin -/

/-- What an iteration finds at `pos` begins nothing else. -/
structure OperatorAt (ct : CType) (source : Bytes) (pos : Nat) (c : UInt8) : Prop where
  char : source[pos]? = some c
  not_newline : c ≠ newline
  not_space : ¬ (c = 0x0D ∨ ct.isspace c = true)
  not_comment : c = slash → source[pos + 1]? ≠ some slash ∧ source[pos + 1]? ≠ some star
  not_quote : ¬ (c = doubleQuote ∨ c = singleQuote)
  not_digit : ct.isdigit c = false
  not_fraction : c = dot → ∀ d, source[pos + 1]? = some d → ct.isdigit d = false
  not_name : isIdentStart ct c = false
  not_sign : c ≠ hashSign

theorem ifAt_eq_false {b : Bool} (h : b = true → ∀ d, source[i]? = some d → p d = false) :
    ifAt source b i p = .ok false := by
  cases b with
  | false => exact ifAt_false source i p
  | true =>
      cases hd : source[i]? with
      | none =>
          have hge := List.getElem?_eq_none_iff.mp hd
          rw [ifAt, if_neg fun h => Nat.not_lt_of_le hge h.2]
          rfl
      | some d => rw [ifAt_eq hd, h rfl d hd, Bool.and_false]

theorem step_of_operator (h : OperatorAt ct source cur.pos c) :
    step ct source fuel cur = operator source c cur := by
  obtain ⟨hc, hnew, hspace, hcomment, hquote, hdigit, hfraction, hname, hsign⟩ := h
  have hslash : ifAt source (c == slash) (cur.pos + 1) (· == slash) = .ok false := by
    refine ifAt_eq_false fun hb d hd => beq_eq_false_iff_ne.mpr ?_
    rintro rfl
    exact (hcomment (beq_iff_eq.mp hb)).1 hd
  have hstar : ifAt source (c == slash) (cur.pos + 1) (· == star) = .ok false := by
    refine ifAt_eq_false fun hb d hd => beq_eq_false_iff_ne.mpr ?_
    rintro rfl
    exact (hcomment (beq_iff_eq.mp hb)).2 hd
  have hdot : ifAt source (c == dot) (cur.pos + 1) ct.isdigit = .ok false :=
    ifAt_eq_false fun hb d hd => hfraction (beq_iff_eq.mp hb) d hd
  simp [step, charAt_eq hc, hnew, hspace, hslash, hstar, hdot, hquote, hdigit, hname, hsign, bind, Except.bind]

/-- The characters of ASCII that can begin an operator, whatever follows them. -/
def beginsOperator (c : UInt8) : Bool :=
  !(CType.c.isspace c || c == doubleQuote || c == singleQuote || CType.c.isdigit c || isIdentStart .c c ||
    c == hashSign)

theorem OperatorAt.beginsOperator (h : OperatorAt ct source i c) (hc : c < 0x80) : beginsOperator c = true := by
  have hspace : CType.c.isspace c = false := by
    rw [CType.c.isspace_ascii c hc, ← ct.isspace_ascii c hc]
    exact Bool.eq_false_iff.mpr fun hspace => h.not_space (.inr hspace)
  have hdigit : CType.c.isdigit c = false := by
    rw [CType.c.isdigit_ascii c hc, ← ct.isdigit_ascii c hc]
    exact h.not_digit
  have hname : isIdentStart .c c = false := by
    rw [isIdentStart, CType.c.isalpha_ascii c hc, ← ct.isalpha_ascii c hc]
    exact h.not_name
  have hdouble : (c == doubleQuote) = false := beq_eq_false_iff_ne.mpr fun hq => h.not_quote (.inl hq)
  have hsingle : (c == singleQuote) = false := beq_eq_false_iff_ne.mpr fun hq => h.not_quote (.inr hq)
  have hsign : (c == hashSign) = false := beq_eq_false_iff_ne.mpr h.not_sign
  rw [Tokenizer.beginsOperator, hspace, hdigit, hname, hdouble, hsingle, hsign]
  rfl

/-! ## The pairs that are taken for operators -/

/-- The other pairs of ASCII characters with the hash of an operator, as far as they begin no other token. -/
def mistaken : List String :=
  ["<?", "=>", ">?", "]<", "]=", "]>", "]\x7d", "^>", "|<", "|?", "~>", "~?", "\x04<", "\x07'", "\x07<", "\x0e<",
    "\x13s", "\x1c<", "\x1c?", "\x1d<", "\x1d=", "\x1d>", "\x1f<", "\x1f>", "\x1f?", "\x7f<", "\x7f?"]

/-- The bits of the character that gives the hash `h` in front of `d`. -/
def bitsBefore (d : UInt8) (h : UInt32) : Nat := (hash [d] * 33 ^^^ h).toNat

/-- For each second character and each operator there is one first character at most. -/
theorem pair_of_hash {op : String} (hop : op ∈ "->" :: operators) (hc : c < 0x80) (hd : d < 0x80)
    (hbegins : beginsOperator c = true) (h : hash [c, d] = hash (text op)) :
    [c, d] = text op ∨ [c, d] ∈ mistaken.map text := by
  have hpairs : ∀ op ∈ "->" :: operators, ∀ n < 128,
      0 < bitsBefore (UInt8.ofNat n) (hash (text op)) ∧ bitsBefore (UInt8.ofNat n) (hash (text op)) < 128 →
      beginsOperator (UInt8.ofNat (bitsBefore (UInt8.ofNat n) (hash (text op)))) = true →
      [UInt8.ofNat (bitsBefore (UInt8.ofNat n) (hash (text op))), UInt8.ofNat n] ∈ (op :: mistaken).map text := by
    decide +kernel
  have hc0 : c ≠ 0 := by
    rintro rfl
    have hempty : ∀ op ∈ "->" :: operators, hash (text op) ≠ 5381 := by decide +kernel
    exact hempty op hop h.symm
  have hbits : bitsBefore d (hash (text op)) = c.toNat := by
    rw [bitsBefore, ← charBits_of_hash hc0 h, charBits_ascii hc]
  have hpair := hpairs op hop d.toNat (UInt8.lt_iff_toNat_lt.mp hd)
  rw [UInt8.ofNat_toNat, hbits, UInt8.ofNat_toNat] at hpair
  have hpos : 0 < c.toNat := Nat.pos_of_ne_zero fun hz => hc0 (UInt8.toNat_inj.mp hz)
  exact List.mem_cons.mp (hpair ⟨hpos, UInt8.lt_iff_toNat_lt.mp hc⟩ hbegins)

theorem twoType_eq (hc : c < 0x80) (hd : d < 0x80) (hbegins : beginsOperator c = true) :
    twoType [c, d] =
      if [c, d] = text "->" then .arrow
      else if [c, d] ∈ (operators ++ mistaken).map text then .operator
      else .none := by
  by_cases harrow : [c, d] = text "->"
  · rw [harrow]
    rfl
  have hmistaken : ∀ op ∈ mistaken, hash (text op) ≠ hash (text "->") ∧
      ∃ op' ∈ operators, hash (text op) = hash (text op') := by decide +kernel
  have hne : hash [c, d] ≠ hash (text "->") := by
    intro h
    obtain ⟨op, hop, heq⟩ := List.mem_map.mp ((pair_of_hash List.mem_cons_self hc hd hbegins h).resolve_left harrow)
    exact (hmistaken op hop).1 (heq ▸ h)
  have hany : (operators.any fun op => hash [c, d] == hash (text op)) = true ↔
      [c, d] ∈ (operators ++ mistaken).map text := by
    rw [List.any_eq_true, List.map_append, List.mem_append]
    constructor
    · rintro ⟨op, hop, h⟩
      rcases pair_of_hash (List.mem_cons_of_mem _ hop) hc hd hbegins (beq_iff_eq.mp h) with h | h
      · exact .inl (List.mem_map.mpr ⟨op, hop, h.symm⟩)
      · exact .inr h
    · rintro (h | h)
      · obtain ⟨op, hop, heq⟩ := List.mem_map.mp h
        exact ⟨op, hop, beq_iff_eq.mpr (heq ▸ rfl)⟩
      · obtain ⟨op, hop, heq⟩ := List.mem_map.mp h
        obtain ⟨op', hop', hhash⟩ := (hmistaken op hop).2
        exact ⟨op', hop', beq_iff_eq.mpr (heq ▸ hhash)⟩
  rw [twoType, if_neg hne, if_neg harrow]
  simp only [hany]

/-! ## The token at an operator -/

/-- One of the words stands at the beginning of the text. -/
def Leads (ops : List String) (s : Bytes) : Prop := ∃ op ∈ ops, text op <+: s

instance (ops : List String) (s : Bytes) : Decidable (Leads ops s) := inferInstanceAs (Decidable (∃ op ∈ ops, _))

/-- The type and the value of the token at `rest`, if `ops` are the operators of two characters next to the arrow. -/
def operatorToken (ops : List String) (c : UInt8) (rest : Bytes) : TokenType × Bytes :=
  if Leads ["<<=", ">>="] rest then (.operator, rest.take 3)
  else if Leads ["->"] rest then (.arrow, rest.take 2)
  else if Leads ops rest then (.operator, rest.take 2)
  else (charType c, [c])

theorem leads_iff (hops : ∀ op ∈ ops, (text op).length = 2) : Leads ops rest ↔ rest.take 2 ∈ ops.map text := by
  rw [List.mem_map]
  constructor
  · rintro ⟨op, hop, h⟩
    refine ⟨op, hop, ?_⟩
    rw [← hops op hop]
    exact List.prefix_iff_eq_take.mp h
  · rintro ⟨op, hop, h⟩
    exact ⟨op, hop, h ▸ List.take_prefix 2 rest⟩

theorem two_le_of_leads (hops : ∀ op ∈ ops, 2 ≤ (text op).length) (h : Leads ops rest) : 2 ≤ rest.length := by
  obtain ⟨op, hop, h⟩ := h
  exact Nat.le_trans (hops op hop) h.length_le

theorem operators_length : ∀ op ∈ operators, (text op).length = 2 := by decide

theorem mistaken_length : ∀ op ∈ mistaken, (text op).length = 2 := by decide

theorem taken_length : ∀ op ∈ operators ++ mistaken, (text op).length = 2 :=
  List.forall_mem_append.mpr ⟨operators_length, mistaken_length⟩

theorem arrow_length : ∀ op ∈ ["->"], (text op).length = 2 := by decide

theorem leads_three_iff (more : Bytes) :
    Leads ["<<=", ">>="] (c :: d :: more) ↔
      ([c, d] = text "<<" ∨ [c, d] = text ">>") ∧ more.head? = some equalsSign := by
  constructor
  · rintro ⟨op, hop, s, h⟩
    rw [List.mem_cons, List.mem_singleton] at hop
    rcases hop with rfl | rfl
    · obtain ⟨rfl, rfl, rfl⟩ : 0x3C = c ∧ 0x3C = d ∧ equalsSign :: s = more := by simpa [text, equalsSign] using h
      exact ⟨.inl rfl, rfl⟩
    · obtain ⟨rfl, rfl, rfl⟩ : 0x3E = c ∧ 0x3E = d ∧ equalsSign :: s = more := by simpa [text, equalsSign] using h
      exact ⟨.inr rfl, rfl⟩
  · rintro ⟨hpair, hnext⟩
    obtain ⟨s, rfl⟩ := List.head?_eq_some_iff.mp hnext
    rcases hpair with h | h
    · exact ⟨"<<=", .head _, s, congrArg (· ++ equalsSign :: s) h.symm⟩
    · exact ⟨">>=", .tail _ (.head _), s, congrArg (· ++ equalsSign :: s) h.symm⟩

theorem shift_mem {pair : Bytes} (h : pair = text "<<" ∨ pair = text ">>") : pair ∈ operators.map text := by
  rcases h with rfl | rfl <;> decide

theorem operatorToken_pair (hops : ∀ op ∈ ops, (text op).length = 2) (more : Bytes) :
    operatorToken ops c (c :: d :: more) =
      if ([c, d] = text "<<" ∨ [c, d] = text ">>") ∧ more.head? = some equalsSign then (.operator, [c, d, equalsSign])
      else if [c, d] = text "->" then (.arrow, [c, d])
      else if [c, d] ∈ ops.map text then (.operator, [c, d])
      else (charType c, [c]) := by
  have harrow : Leads ["->"] (c :: d :: more) ↔ [c, d] = text "->" :=
    (leads_iff arrow_length).trans List.mem_singleton
  by_cases hthree : ([c, d] = text "<<" ∨ [c, d] = text ">>") ∧ more.head? = some equalsSign
  · obtain ⟨s, rfl⟩ := List.head?_eq_some_iff.mp hthree.2
    rw [operatorToken, if_pos ((leads_three_iff _).mpr hthree), if_pos hthree]
    rfl
  · rw [operatorToken, if_neg fun h => hthree ((leads_three_iff _).mp h), if_neg hthree]
    simp only [harrow, leads_iff hops]
    rfl

theorem operatorToken_single (hops : ∀ op ∈ ops, (text op).length = 2) : operatorToken ops c [c] = (charType c, [c]) := by
  have hnot : ∀ {ops : List String}, (∀ op ∈ ops, 2 ≤ (text op).length) → ¬ Leads ops [c] :=
    fun hops h => absurd (two_le_of_leads hops h) (Nat.not_succ_le_self 1)
  have hthree : ∀ op ∈ ["<<=", ">>="], 2 ≤ (text op).length := by decide
  rw [operatorToken, if_neg (hnot hthree), if_neg (hnot fun op hop => Nat.le_of_eq (arrow_length op hop).symm),
    if_neg (hnot fun op hop => Nat.le_of_eq (hops op hop).symm)]

/-- The iteration pushes a token of this type and value, and the cursor is behind it. -/
def Makes (cur : Cursor) (token : TokenType × Bytes) (r : Option Token × Cursor) : Prop :=
  ∃ t, r.1 = some t ∧ (t.type, t.value) = token ∧ r.2.pos = cur.pos + t.value.length

theorem ensures_makes {type : TokenType} {value : Bytes} {k : Nat} (hk : value.length = k) :
    Ensures (do return (some { type, value, line := cur.line, column := cur.col }, ← cur.advance k))
      (Makes cur (type, value)) := by
  refine (ensures_advance cur k).bind fun cur' hcur' => .pure ⟨_, rfl, rfl, ?_⟩
  rw [hcur', hk]

/-- What the operator branch makes. -/
theorem ensures_operator (hascii : Ascii source) (h : OperatorAt ct source cur.pos c) :
    Ensures (operator source c cur) (Makes cur (operatorToken (operators ++ mistaken) c (source.drop cur.pos))) := by
  rw [drop_of_getElem? h.char]
  unfold operator
  by_cases hlt : cur.pos + 1 < source.length
  · have hd := List.getElem?_eq_getElem hlt
    generalize source[cur.pos + 1] = d at hd
    have htype := twoType_eq (hascii.lt h.char) (hascii.lt hd) (h.beginsOperator (hascii.lt h.char))
    rw [drop_of_getElem? hd, operatorToken_pair taken_length, if_pos hlt]
    refine (ensures_substr_eq cur.pos 2).bind fun two htwo => ?_
    rw [take_two h.char hd] at htwo
    subst htwo
    by_cases harrow : [c, d] = text "->"
    · rw [htype, harrow]
      exact ensures_makes rfl
    rw [if_neg harrow] at htype ⊢
    by_cases hmem : [c, d] ∈ (operators ++ mistaken).map text
    · rw [htype, if_pos hmem, if_pos hmem]
      refine Ensures.bind (ensures_ifAt source _ (cur.pos + 2) _) fun r hr => ?_
      have hthree : r = true ↔ ([c, d] = text "<<" ∨ [c, d] = text ">>") ∧
          (source.drop (cur.pos + 1 + 1)).head? = some equalsSign := by
        rw [hr, List.head?_drop, Bool.or_eq_true, beq_iff_eq, beq_iff_eq]
        refine and_congr_right fun _ => ⟨?_, fun hnext => ⟨_, hnext, beq_self_eq_true _⟩⟩
        rintro ⟨e, he, heq⟩
        rw [beq_iff_eq] at heq
        exact heq ▸ he
      cases r with
      | true =>
          obtain ⟨more, hmore⟩ := List.head?_eq_some_iff.mp (hthree.mp rfl).2
          rw [if_pos (hthree.mp rfl)]
          refine (ensures_substr_eq cur.pos 3).bind fun three htake => ?_
          rw [drop_of_getElem? h.char, drop_of_getElem? hd, hmore] at htake
          subst htake
          exact ensures_makes rfl
      | false =>
          rw [if_neg fun h => Bool.false_ne_true (hthree.mpr h)]
          exact ensures_makes rfl
    · rw [htype, if_neg hmem, if_neg hmem,
        if_neg fun h => hmem (List.map_append ▸ List.mem_append_left _ (shift_mem h.1))]
      exact ensures_makes rfl
  · have hnil : source.drop (cur.pos + 1) = [] := List.drop_eq_nil_of_le (Nat.le_of_not_lt hlt)
    rw [if_neg hlt, hnil, operatorToken_single taken_length]
    exact ensures_makes rfl

/-- What is mistaken for an operator is another token. -/
theorem operatorToken_eq_iff (s : Bytes) :
    operatorToken (operators ++ mistaken) c (c :: s) = operatorToken operators c (c :: s) ↔
      ¬ Leads mistaken (c :: s) := by
  cases s with
  | nil =>
      rw [operatorToken_single taken_length, operatorToken_single operators_length]
      refine iff_of_true rfl fun h => ?_
      have hle := two_le_of_leads (fun op hop => Nat.le_of_eq (mistaken_length op hop).symm) h
      exact absurd hle (Nat.not_succ_le_self 1)
  | cons d more =>
      rw [operatorToken_pair taken_length, operatorToken_pair operators_length, leads_iff mistaken_length,
        List.take_succ_cons, List.take_succ_cons, List.take_zero, List.map_append]
      by_cases hmem : [c, d] ∈ mistaken.map text
      · have hother : ∀ pair ∈ mistaken.map text, pair ∉ operators.map text ∧ pair ≠ text "->" := by decide
        obtain ⟨hnot, harrow⟩ := hother _ hmem
        have hthree : ¬ (([c, d] = text "<<" ∨ [c, d] = text ">>") ∧ more.head? = some equalsSign) :=
          fun h => hnot (shift_mem h.1)
        rw [if_neg hthree, if_neg hthree, if_neg harrow, if_neg harrow, if_pos (List.mem_append_right _ hmem), if_neg hnot]
        exact iff_of_false (fun h => by cases congrArg (·.2.length) h) (not_not_intro hmem)
      · simp only [List.mem_append, hmem, or_false, not_false_eq_true]

/-- For every ASCII source and every place where `tokenize` reaches its operator branch: it makes the longest operator
that stands there, or else a token of the character, if and only if no other pair with the hash of one stands there. -/
theorem operator_iff (hascii : Ascii source) (h : Reached ct source fuel cur) (hop : OperatorAt ct source cur.pos c) :
    Settles ct source fuel cur fun r =>
      Makes cur (operatorToken operators c (source.drop cur.pos)) r ↔ ¬ Leads mistaken (source.drop cur.pos) := by
  refine .of_ensures h (lt_of_getElem? hop.char) ?_
  rw [step_of_operator hop]
  refine (ensures_operator hascii hop).mono fun r ⟨t, ht, htoken, hpos⟩ => ?_
  rw [drop_of_getElem? hop.char] at htoken ⊢
  rw [← operatorToken_eq_iff, ← htoken]
  constructor
  · rintro ⟨t', ht', htoken', -⟩
    obtain rfl := Option.some.inj (ht.symm.trans ht')
    exact htoken'
  · intro heq
    exact ⟨t, ht, heq, hpos⟩

/-- A shift with its assignment, which are three characters. -/
theorem operator_iff_shift : Settles .c (text "<<=b") 9 .start fun r =>
    Makes .start (operatorToken operators 0x3C (text "<<=b")) r ↔ ¬ Leads mistaken (text "<<=b") := by
  have hascii : Ascii (text "<<=b") := by
    unfold Ascii
    decide +kernel
  have hop : OperatorAt .c (text "<<=b") 0 0x3C :=
    ⟨rfl, by decide, by decide, by decide, by decide, rfl, by decide, rfl, by decide⟩
  exact operator_iff hascii .start hop

/-- `]=` has the hash of `>>`, so that an assignment to an element of an array loses its bracket. -/
theorem bracket_taken_for_operator :
    tokenize .c (text "a[0]=b") 9 = .ok ([⟨.identifier, text "a", 1, 1⟩, ⟨.lbracket, text "[", 1, 2⟩,
      ⟨.number, text "0", 1, 3⟩, ⟨.operator, text "]=", 1, 4⟩, ⟨.identifier, text "b", 1, 6⟩, ⟨.eof, [], 1, 7⟩],
      ⟨6, 1, 7, 6⟩) ∧ OperatorAt .c (text "a[0]=b") 3 0x5D ∧
      operatorToken operators 0x5D ((text "a[0]=b").drop 3) = (.rbracket, text "]") :=
  ⟨by rfl, ⟨rfl, by decide, by decide, by decide, by decide, rfl, by decide, rfl, by decide⟩, by decide⟩

end Dwhbll.Tokenizer
