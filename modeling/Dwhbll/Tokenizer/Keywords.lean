import Dwhbll.Tokenizer.Lemmas.Words

/-!
# Keywords and identifiers

A word is taken for a keyword by its hash. What is not spelled like the keyword and has its hash is taken for it too.
-/

namespace Dwhbll.Tokenizer

open Loops

def tokenName : TokenType → String
  | .none => ""
  | .eof => "eof"
  | .newline => "newline"
  | .identifier => "identifier"
  | .stringLit => "string_lit"
  | .charLit => "char_lit"
  | .number => "number"
  | .lbrace => "lbrace"
  | .rbrace => "rbrace"
  | .lparen => "lparen"
  | .rparen => "rparen"
  | .lbracket => "lbracket"
  | .rbracket => "rbracket"
  | .semicolon => "semicolon"
  | .comma => "comma"
  | .colon => "colon"
  | .question => "question"
  | .dot => "dot"
  | .arrow => "arrow"
  | .kwIf => "if"
  | .kwElse => "else"
  | .kwFor => "for"
  | .kwWhile => "while"
  | .kwDo => "do"
  | .kwSwitch => "switch"
  | .kwCase => "case"
  | .kwReturn => "return"
  | .kwBreak => "break"
  | .kwContinue => "continue"
  | .kwStruct => "struct"
  | .kwUnion => "union"
  | .kwEnum => "enum"
  | .kwTypedef => "typedef"
  | .kwStatic => "static"
  | .kwExtern => "extern"
  | .kwConst => "const"
  | .kwVoid => "void"
  | .kwChar => "char"
  | .kwInt => "int"
  | .kwShort => "short"
  | .kwLong => "long"
  | .kwFloat => "float"
  | .kwDouble => "double"
  | .kwSigned => "signed"
  | .kwUnsigned => "unsigned"
  | .kwSizeof => "sizeof"
  | .kwAuto => "auto"
  | .kwRegister => "register"
  | .kwVolatile => "volatile"
  | .kwGoto => "goto"
  | .kwDefault => "default"
  | .operator => "operator"
  | .ppInclude => "include"
  | .ppDefine => "define"
  | .ppOther => "other"
  | .lineComment => "line_comment"
  | .blockComment => "block_comment"

/-- The enumerators `kw_if` to `kw_default`. -/
def keywordTypes : List TokenType :=
  [.kwIf, .kwElse, .kwFor, .kwWhile, .kwDo, .kwSwitch, .kwCase, .kwReturn, .kwBreak, .kwContinue, .kwStruct, .kwUnion,
    .kwEnum, .kwTypedef, .kwStatic, .kwExtern, .kwConst, .kwVoid, .kwChar, .kwInt, .kwShort, .kwLong, .kwFloat,
    .kwDouble, .kwSigned, .kwUnsigned, .kwSizeof, .kwAuto, .kwRegister, .kwVolatile, .kwGoto, .kwDefault]

/-- A letter or underscore, and then letters, digits and underscores. -/
def IsWord : Bytes → Prop
  | [] => False
  | c :: word => isIdentStart .c c ∧ ∀ d ∈ word, isIdentContinue .c d

instance : (word : Bytes) → Decidable (IsWord word)
  | [] => inferInstanceAs (Decidable False)
  | _ :: _ => inferInstanceAs (Decidable (_ ∧ _))

/-- The word is spelled like a keyword. -/
def IsKeyword (word : Bytes) : Prop := ∃ k ∈ keywordTypes, word = text (tokenName k)

instance (word : Bytes) : Decidable (IsKeyword word) := inferInstanceAs (Decidable (∃ k ∈ _, _))

/-- The word has the hash of a keyword. -/
def HashesAsKeyword (word : Bytes) : Prop := ∃ k ∈ keywordTypes, hash word = hash (text (tokenName k))

instance (word : Bytes) : Decidable (HashesAsKeyword word) := inferInstanceAs (Decidable (∃ k ∈ _, _))

/-! ## `kw_type` -/

theorem keywords_eq : keywords = keywordTypes.map fun k => (tokenName k, k) := rfl

variable {word : Bytes} {k : TokenType}

/-- The keywords have different hashes, as the labels of a `switch` must. -/
theorem kwType_tokenName (hk : k ∈ keywordTypes) : kwType (text (tokenName k)) = k := by
  have hall : ∀ k ∈ keywordTypes, kwType (text (tokenName k)) = k := by decide +kernel
  exact hall k hk

theorem kwType_congr {word' : Bytes} (h : hash word = hash word') : kwType word = kwType word' := by
  unfold kwType
  rw [h]

theorem kwType_eq_none (h : ¬ HashesAsKeyword word) : kwType word = .none := by
  have hnone : keywords.find? (fun kw => hash (text kw.1) == hash word) = none := by
    rw [List.find?_eq_none, keywords_eq]
    intro kw hkw heq
    obtain ⟨k, hk, rfl⟩ := List.mem_map.mp hkw
    exact h ⟨k, hk, (beq_iff_eq.mp heq).symm⟩
  rw [kwType, hnone]

theorem none_not_mem_keywordTypes : TokenType.none ∉ keywordTypes := by decide

theorem kwType_eq_iff (hk : k ∈ keywordTypes) : kwType word = k ↔ hash word = hash (text (tokenName k)) := by
  constructor
  · intro h
    by_cases hw : HashesAsKeyword word
    · obtain ⟨k', hk', heq⟩ := hw
      rw [kwType_congr heq, kwType_tokenName hk'] at h
      rw [heq, h]
    · rw [kwType_eq_none hw] at h
      exact absurd (h ▸ hk) none_not_mem_keywordTypes
  · intro h
    rw [kwType_congr h, kwType_tokenName hk]

/-! ## The tokens of words -/

/-- What is known of the token that an iteration pushes, if it pushes one. -/
def EnsuresToken (P : Token → Prop) (m : Except Fault (Option Token × Cursor)) : Prop :=
  Ensures m fun r => ∀ t, r.1 = some t → P t

/-- The token is empty or begins with the character `c`. -/
def BeginsWith (c : UInt8) (t : Token) : Prop := t.value = [] ∨ t.value.head? = some c

variable {ct : CType} {source : Bytes} {cur : Cursor} {fuel start : Nat} {c : UInt8} {P : Token → Prop}

theorem ensures_some {t : Token} {m : Except Fault Cursor} (h : P t) :
    EnsuresToken P (do return (some t, ← m)) := by
  refine .bind_any fun cur' => .pure fun t' ht => ?_
  cases ht
  exact h

theorem ensures_substr (hc : source[start]? = some c) (len : Nat) :
    Ensures (substr source start len) fun value => value = [] ∨ value.head? = some c := by
  obtain ⟨hlt, rfl⟩ := List.getElem?_eq_some_iff.mp hc
  rw [substr, if_pos hlt]
  refine .pure ?_
  cases len with
  | zero => exact .inl rfl
  | succ len =>
      rw [List.drop_eq_getElem_cons hlt]
      exact .inr rfl

/-- A branch that ends with the piece from its start on. -/
theorem ensures_piece {type : TokenType} (hc : source[start]? = some c) (cur : Cursor) :
    EnsuresToken (BeginsWith c) (do return (some (← piece source type start cur), cur)) := by
  refine Ensures.bind (Q := BeginsWith c) ?_ fun t ht => .pure fun t' ht' => ?_
  · exact (ensures_substr hc _).bind fun value hvalue => .pure hvalue
  · cases ht'
    exact ht

theorem ensures_charAt {i : Nat} : Ensures (charAt source i) fun c => source[i]? = some c := by
  intro c h
  unfold charAt at h
  split at h
  · cases h
    assumption
  · cases h

section Branches

variable (hc : source[cur.pos]? = some c)

include hc

theorem lineComment_begins : EnsuresToken (BeginsWith c) (lineComment source fuel cur) :=
  .bind_any fun _ => .bind_any fun cur' => ensures_piece hc cur'

theorem blockComment_begins : EnsuresToken (BeginsWith c) (blockComment source fuel cur) :=
  .bind_any fun _ => .bind_any fun cur' => ensures_piece hc cur'

theorem literal_begins (quote : UInt8) : EnsuresToken (BeginsWith c) (literal source quote fuel cur) :=
  .bind_any fun _ => .bind_any fun cur' => ensures_piece hc cur'

theorem number_begins : EnsuresToken (BeginsWith c) (number ct source c fuel cur) :=
  .bind_any fun _ => .bind_any fun cur' => ensures_piece hc cur'

theorem identifier_begins : EnsuresToken (BeginsWith c) (identifier ct source fuel cur) :=
  .bind_any fun _ => .bind_any fun cur' => .bind_any fun _ => ensures_piece hc cur'

theorem directive_begins (hsign : c = hashSign) : EnsuresToken (BeginsWith c) (directive ct source fuel cur) := by
  refine .bind_any fun _ => .bind_any fun cur' => .bind_any fun b => ?_
  cases b with
  | true => exact .bind_any fun _ => .bind_any fun _ => .bind_any fun cur' => ensures_piece hc cur'
  | false => exact ensures_some (.inr (by rw [hsign]; rfl))

theorem operator_begins :
    EnsuresToken (fun t => t.value = text "->" ∨ BeginsWith c t) (operator source c cur) := by
  have hpunct : EnsuresToken (fun t => t.value = text "->" ∨ BeginsWith c t) (punctuation c cur) :=
    ensures_some (.inr (.inr rfl))
  unfold operator
  split
  · refine (ensures_substr hc 2).bind fun two htwo => ?_
    split
    · exact ensures_some (.inl rfl)
    · refine .bind_any fun b => ?_
      cases b with
      | true => exact (ensures_substr hc 3).bind fun three hthree => ensures_some (.inr hthree)
      | false => exact ensures_some (.inr htwo)
    · exact hpunct
  · exact hpunct

/-- The token of an iteration is an arrow or begins with the character that the iteration finds. -/
theorem step_begins : EnsuresToken (fun t => t.value = text "->" ∨ BeginsWith c t) (step ct source fuel cur) := by
  have hbegins : ∀ {m : Except Fault (Option Token × Cursor)}, EnsuresToken (BeginsWith c) m →
      EnsuresToken (fun t => t.value = text "->" ∨ BeginsWith c t) m := fun h r hr t ht => .inr (h r hr t ht)
  refine ensures_charAt.bind fun d hd => ?_
  obtain rfl : c = d := Option.some.inj (hc.symm.trans hd)
  split
  · rename_i hnew
    exact ensures_some (.inr (.inr (by rw [hnew]; rfl)))
  split
  · refine .bind_any fun cur' => .pure fun t ht => ?_
    cases ht
  refine .bind_any fun r => ?_
  split
  · exact hbegins (lineComment_begins hc)
  refine .bind_any fun r => ?_
  split
  · exact hbegins (blockComment_begins hc)
  split
  · exact hbegins (literal_begins hc c)
  refine .bind_any fun r => ?_
  split
  · exact hbegins (number_begins hc)
  split
  · exact hbegins (identifier_begins hc)
  split
  · rename_i hhash
    exact hbegins (directive_begins hc hhash)
  · exact operator_begins hc

end Branches

/-- What `tokenize` makes of a word. -/
def wordType (word : Bytes) : TokenType := if kwType word = .none then .identifier else kwType word

theorem ensures_identifier :
    EnsuresToken (fun t => t.type = wordType t.value) (identifier ct source fuel cur) := by
  refine .bind_any fun _ => .bind_any fun cur' => ?_
  intro r hr
  obtain ⟨word, hword, hr⟩ := bind_eq_ok hr
  obtain ⟨t, ht, hr⟩ := bind_eq_ok hr
  obtain ⟨value, hvalue, ht⟩ := bind_eq_ok ht
  rw [hword] at hvalue
  cases hvalue
  cases ht
  cases hr
  intro t ht
  cases ht
  rfl

/-- A character that begins a word. -/
structure Starts (c : UInt8) : Prop where
  ascii : c < 0x80
  start : isIdentStart .c c = true
  not_space : CType.c.isspace c = false
  not_digit : CType.c.isdigit c = false
  ne : c ≠ newline ∧ c ≠ 0x0D ∧ c ≠ slash ∧ c ≠ doubleQuote ∧ c ≠ singleQuote ∧ c ≠ dot

theorem starts_of_isIdentStart (h : isIdentStart .c c = true) : Starts c := by
  have hall : ∀ n < 256, isIdentStart .c (UInt8.ofNat n) = true →
      UInt8.ofNat n < 0x80 ∧ CType.c.isspace (UInt8.ofNat n) = false ∧ CType.c.isdigit (UInt8.ofNat n) = false ∧
        UInt8.ofNat n ≠ newline ∧ UInt8.ofNat n ≠ 0x0D ∧ UInt8.ofNat n ≠ slash ∧ UInt8.ofNat n ≠ doubleQuote ∧
        UInt8.ofNat n ≠ singleQuote ∧ UInt8.ofNat n ≠ dot := by decide +kernel
  have hc := hall c.toNat c.toNat_lt
  rw [UInt8.ofNat_toNat] at hc
  obtain ⟨hascii, hspace, hdigit, hne⟩ := hc h
  exact ⟨hascii, h, hspace, hdigit, hne⟩

theorem ifAt_false (source : Bytes) (i : Nat) (p : UInt8 → Bool) : ifAt source false i p = .ok false := by
  simp [ifAt, pure, Except.pure]

/-- The characters that a word begins with begin no other token. -/
theorem step_of_starts (hc : source[cur.pos]? = some c) (h : Starts c) :
    step ct source fuel cur = identifier ct source fuel cur := by
  obtain ⟨hnew, hcr, hslash, hdouble, hsingle, hdot⟩ := h.ne
  have hspace : ct.isspace c = false := (ct.isspace_ascii c h.ascii).trans h.not_space
  have hdigit : ct.isdigit c = false := (ct.isdigit_ascii c h.ascii).trans h.not_digit
  have hstart : isIdentStart ct c = true := by
    rw [isIdentStart, ct.isalpha_ascii c h.ascii]
    exact h.start
  have hchar : charAt source cur.pos = .ok c := by rw [charAt, hc]
  have hb : (c == slash) = false := beq_eq_false_iff_ne.mpr hslash
  have hb' : (c == dot) = false := beq_eq_false_iff_ne.mpr hdot
  simp [step, hchar, hnew, hcr, hspace, hb, hb', ifAt_false, hdouble, hsingle, hdigit, hstart, bind, Except.bind]

/-- A token that is spelled like a word is the token of that word. -/
theorem step_ensures (hc : source[cur.pos]? = some c) :
    EnsuresToken (fun t => IsWord t.value → t.type = wordType t.value) (step ct source fuel cur) := by
  by_cases hstart : isIdentStart .c c = true
  · rw [step_of_starts hc (starts_of_isIdentStart hstart)]
    intro r hr t ht hword
    exact ensures_identifier r hr t ht
  · intro r hr t ht hword
    rcases step_begins hc r hr t ht with harrow | hempty | hhead
    · rw [harrow] at hword
      exact absurd hword (by decide)
    · rw [hempty] at hword
      exact hword.elim
    · cases hvalue : t.value with
      | nil => rw [hvalue] at hhead; cases hhead
      | cons d value =>
          rw [hvalue] at hhead hword
          cases hhead
          exact absurd hword.1 hstart

theorem tokenize_ensures (ct : CType) (source : Bytes) (fuel : Nat) :
    Ensures (tokenize ct source fuel) fun r => ∀ t ∈ r.1, IsWord t.value → t.type = wordType t.value := by
  refine Ensures.bind (Q := fun s => ∀ t ∈ s.1, IsWord t.value → t.type = wordType t.value) ?_ ?_
  · refine Ensures.loop (I := fun s => ∀ t ∈ s.1, IsWord t.value → t.type = wordType t.value) ?_ (by simp)
    intro s hs
    unfold tokenizeStep
    split
    · rename_i hlt
      refine Ensures.bind (step_ensures (List.getElem?_eq_getElem hlt)) fun r hr => .pure fun t ht => ?_
      rcases List.mem_append.mp ht with ht | ht
      · exact hs t ht
      · exact hr t (Option.mem_toList.mp ht)
    · exact .pure hs
  · intro s hs
    refine .pure fun t ht => ?_
    rcases List.mem_append.mp ht with ht | ht
    · exact hs t ht
    · cases List.mem_singleton.mp ht
      exact fun hword => hword.elim

/-! ## When words are taken for what they are -/

/-- The word is of the type of a keyword if it is spelled like it, of none if it is spelled like none of them, and then
all its tokens are identifiers. -/
structure Recognised (word : Bytes) : Prop where
  keyword : ∀ k ∈ keywordTypes, kwType word = k ↔ word = text (tokenName k)
  other : ¬ IsKeyword word → kwType word = .none
  identifier : ¬ IsKeyword word → ∀ ct source fuel tokens cur, tokenize ct source fuel = .ok (tokens, cur) →
    ∀ t ∈ tokens, t.value = word → t.type = .identifier

/-- A word is recognised if and only if it is a keyword or has the hash of none. -/
theorem recognised_iff (hw : IsWord word) : Recognised word ↔ IsKeyword word ∨ ¬ HashesAsKeyword word := by
  constructor
  · intro h
    by_cases hk : IsKeyword word
    · exact .inl hk
    · refine .inr ?_
      rintro ⟨k, hk', hhash⟩
      exact hk ⟨k, hk', (h.keyword k hk').mp ((kwType_eq_iff hk').mpr hhash)⟩
  · intro h
    have hother : ¬ IsKeyword word → kwType word = .none := fun hk => kwType_eq_none (h.resolve_left hk)
    refine ⟨fun k hk => ⟨fun htype => ?_, ?_⟩, hother, fun hk ct source fuel tokens cur htokens t ht hvalue => ?_⟩
    · rcases h with ⟨k', hk', rfl⟩ | hhash
      · rw [kwType_tokenName hk'] at htype
        rw [htype]
      · rw [kwType_eq_none hhash] at htype
        exact absurd (htype ▸ hk) none_not_mem_keywordTypes
    · rintro rfl
      exact kwType_tokenName hk
    · have htype := tokenize_ensures ct source fuel _ htokens t ht (hvalue ▸ hw)
      rw [htype, hvalue, wordType, if_pos (hother hk)]

theorem recognised_iff_main : IsWord (text "main") ∧ Recognised (text "main") := by
  have hw : IsWord (text "main") := by decide +kernel
  exact ⟨hw, (recognised_iff hw).mpr (.inr (by decide +kernel))⟩

/-- `En` has the hash of `do`. -/
theorem identifier_taken_for_do : IsWord (text "En") ∧ ¬ IsKeyword (text "En") ∧ kwType (text "En") = .kwDo ∧
    ∃ cur, tokenize .c (text "En") 3 =
      .ok ([⟨.kwDo, text "En", 1, 1⟩, ⟨.eof, [], 1, 3⟩], cur) := by
  exact ⟨by decide +kernel, by decide +kernel, by decide +kernel, ⟨2, 1, 3, 2⟩, by rfl⟩

end Dwhbll.Tokenizer
