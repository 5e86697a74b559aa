import Dwhbll.Tokenizer.Lemmas.Layout

/-!
# Theorems about the tokenizer

It stays inside every source and comes to its end, and on sources without literals, directives and block comments the
tokens are the pieces of the source.
-/

namespace Dwhbll.Tokenizer

open Loops

variable {ct : CType} {source : Bytes} {fuel : Nat}

/-! ## Whole runs -/

/-- What holds at the start and is kept by every iteration, which also moves the cursor on, holds in the end. -/
theorem tokenize_of_invariant {I : List Token → Cursor → Prop} (h0 : I [] .start)
    (hstep : ∀ ts cur, I ts cur → cur.pos < source.length →
      Returns (step ct source fuel cur) fun r => I (ts ++ r.1.toList) r.2 ∧ cur.pos < r.2.pos)
    (hf : source.length < fuel) :
    ∃ ts cur, tokenize ct source fuel =
        .ok (ts ++ [{ type := .eof, value := [], line := cur.line, column := cur.col }], cur) ∧
      source.length ≤ cur.pos ∧ I ts cur := by
  have hloop : Returns (loop .running (tokenizeStep ct source fuel) fuel ([], .start))
      fun s => I s.1 s.2 ∧ source.length ≤ s.2.pos := by
    refine Returns.loop (I := fun s => I s.1 s.2) (fun s => left source s.2) ?_ h0 (left_lt_fuel hf)
    rintro ⟨ts, cur⟩ hI
    unfold tokenizeStep
    split
    · rename_i hlt
      refine (hstep ts cur hI hlt).bind fun r ⟨hI', hpos⟩ => ?_
      exact .pure ⟨hI', left_lt hlt hpos⟩
    · rename_i hlt
      exact .pure ⟨hI, Nat.le_of_not_lt hlt⟩
  obtain ⟨⟨ts, cur⟩, heq, hI, hle⟩ := hloop
  refine ⟨ts, cur, ?_, hle, hI⟩
  rw [tokenize, heq]
  rfl

/-- Every source of fewer than `2 ^ 31 - 4` bytes is tokenized without a fault: the source is read inside its bounds
only, each loop ends, `pos` does not get further than three beyond the source, and `eof` is the last token and no
other. -/
theorem tokenize_returns (ct : CType) (source : Bytes) (hn : source.length < 2 ^ 31 - 4) (fuel : Nat)
    (hf : source.length < fuel) :
    ∃ tokens eof cur, tokenize ct source fuel = .ok (tokens ++ [eof], cur) ∧ eof.type = .eof ∧
      (∀ t ∈ tokens, t.type ≠ .eof) ∧ cur.top ≤ source.length + 3 := by
  have hstart : Fits source .start := ⟨by decide, by decide, Nat.zero_le _, Nat.zero_le _⟩
  have hstep : ∀ ts cur, (Fits source cur ∧ ∀ t ∈ ts, t.type ≠ .eof) → cur.pos < source.length →
      Returns (step ct source fuel cur) fun r =>
        (Fits source r.2 ∧ ∀ t ∈ ts ++ r.1.toList, t.type ≠ .eof) ∧ cur.pos < r.2.pos := by
    intro ts cur ⟨hcur, hts⟩ hlt
    refine (Returns.step_safe hn hcur hlt hf).mono fun r hr => ⟨⟨hr.fits, ?_⟩, hr.lt⟩
    exact List.forall_mem_append.mpr ⟨hts, fun t ht => hr.type_ne t (Option.mem_toList.mp ht)⟩
  obtain ⟨ts, cur, heq, -, hfits, hts⟩ := tokenize_of_invariant ⟨hstart, by simp⟩ hstep hf
  exact ⟨ts, _, cur, heq, rfl, hts, hfits.top_le⟩

/-- A string that its source does not end, with a backslash at the end. -/
theorem tokenize_returns_open :
    ∃ tokens eof cur, tokenize .c (text "#\n\"a\\") 6 = .ok (tokens ++ [eof], cur) ∧ eof.type = .eof ∧
      (∀ t ∈ tokens, t.type ≠ .eof) ∧ cur.top ≤ 8 :=
  tokenize_returns .c (text "#\n\"a\\") (by decide) 6 (by decide)

/-! ## The pieces of a source -/

/-- A source that is ASCII and has no quotes, no `#` and no beginning of a block comment. -/
structure Plain (source : Bytes) : Prop where
  ascii : Ascii source
  no_doubleQuote : doubleQuote ∉ source
  no_singleQuote : singleQuote ∉ source
  no_hashSign : hashSign ∉ source
  no_blockComment : ¬ [slash, star] <:+: source

theorem pair_inside {i : Nat} {c d : UInt8} (hc : source[i]? = some c) (hd : source[i + 1]? = some d) :
    [c, d] <:+: source := by
  rw [← take_two hc hd]
  exact (List.take_prefix 2 _).isInfix.trans (List.drop_suffix i source).isInfix

/-- As long as the position of its end is one of `int`s, a plain source is tokenized into its pieces. -/
theorem tokenize_covers (ct : CType) (source : Bytes) (hn : source.length < 2 ^ 31) (hplain : Plain source)
    (hline : lineOf source < 2 ^ 31) (hcol : columnOf source < 2 ^ 31) (fuel : Nat) (hf : source.length < fuel) :
    ∃ ts cur, Covers source ts ∧ tokenize ct source fuel =
      .ok (ts ++ [{ type := .eof, value := [], line := lineOf source, column := columnOf source }], cur) := by
  have hstep : ∀ ts cur, (At source cur ∧ Covers (source.take cur.pos) ts) → cur.pos < source.length →
      Returns (step ct source fuel cur) fun r =>
        (At source r.2 ∧ Covers (source.take r.2.pos) (ts ++ r.1.toList)) ∧ cur.pos < r.2.pos := by
    intro ts cur ⟨hat, hts⟩ hlt
    have hc := List.getElem?_eq_getElem hlt
    have hmem := List.mem_of_getElem? hc
    have hiter : Returns (step ct source fuel cur) fun r => Line ct source cur r ∨ False := by
      refine Returns.step hn (hat.room hn hcol) hf hc (fun hnew => ?_) (fun hslash hstar => ?_) (fun hquote => ?_)
        (fun hhash => ?_)
      · exact hat.line_lt hn hline (hnew ▸ hc)
      · exact absurd (pair_inside (hslash ▸ hc) hstar) hplain.no_blockComment
      · rcases hquote with hquote | hquote
        · exact absurd (hquote ▸ hmem) hplain.no_doubleQuote
        · exact absurd (hquote ▸ hmem) hplain.no_singleQuote
      · exact absurd (hhash ▸ hmem) hplain.no_hashSign
    refine hiter.mono fun r hr => ?_
    obtain ⟨hat', hts', hpos⟩ := (hr.resolve_right id).covers hplain.ascii hat hts
    exact ⟨⟨hat', hts'⟩, hpos⟩
  obtain ⟨ts, cur, heq, hend, hat, hts⟩ := tokenize_of_invariant ⟨at_start source, .nil⟩ hstep hf
  have htake : source.take cur.pos = source := List.take_of_length_le hend
  have hline' := hat.line_eq
  have hcol' := hat.col_eq
  rw [htake] at hts hline' hcol'
  exact ⟨ts, cur, hts, by rw [heq, hline', hcol']⟩

/-- Two lines with an arrow, a number and a comment. -/
theorem tokenize_covers_lines :
    ∃ ts cur, Covers (text "a->b >>= 0x1f // c\n .5;") ts ∧ tokenize .c (text "a->b >>= 0x1f // c\n .5;") 30 =
      .ok (ts ++ [{ type := .eof, value := [], line := 2, column := 5 }], cur) := by
  have hstar : star ∉ text "a->b >>= 0x1f // c\n .5;" := by decide
  have hplain : Plain (text "a->b >>= 0x1f // c\n .5;") :=
    ⟨by unfold Ascii; decide +kernel, by decide, by decide, by decide, fun h => hstar (h.subset (by simp))⟩
  have hline : lineOf (text "a->b >>= 0x1f // c\n .5;") = 2 := by decide
  have hcol : columnOf (text "a->b >>= 0x1f // c\n .5;") = 5 := by decide
  have h := tokenize_covers .c _ (by decide) hplain (by omega) (by omega) 30 (by decide)
  rw [hline, hcol] at h
  exact h

/-! A line that is as long as an `int` can count has no column at its end. -/

theorem int_eq_ok {x y : Nat} (h : int x = .ok y) : y = x ∧ x < 2 ^ 31 := by
  unfold int at h
  split at h
  · cases h
    exact ⟨rfl, ‹_›⟩
  · cases h

theorem advance_eq_ok {cur cur' : Cursor} {k : Nat} (h : cur.advance k = .ok cur') :
    cur'.pos = cur.pos + k ∧ cur'.col = cur.col + k ∧ cur.col + k < 2 ^ 31 := by
  obtain ⟨cur1, h1, h2⟩ := bind_eq_ok h
  obtain ⟨pos, hpos, h3⟩ := bind_eq_ok h1
  obtain ⟨col, hcol, h4⟩ := bind_eq_ok h2
  cases h3
  cases h4
  obtain ⟨rfl, -⟩ := int_eq_ok hpos
  obtain ⟨rfl, hlt⟩ := int_eq_ok hcol
  exact ⟨rfl, rfl, hlt⟩

theorem step_space {cur : Cursor} {r : Option Token × Cursor} (hc : source[cur.pos]? = some 0x20)
    (h : step ct source fuel cur = .ok r) : cur.advance 1 = .ok r.2 := by
  have hspace : ct.isspace 0x20 = true := ct.isspace_ascii 0x20 (by decide)
  obtain ⟨c, hc', h1⟩ := bind_eq_ok h
  rw [charAt, hc] at hc'
  cases hc'
  rw [if_neg (by decide), if_pos (.inr hspace)] at h1
  obtain ⟨cur1, hadv, h2⟩ := bind_eq_ok h1
  cases h2
  exact hadv

/-- A run over spaces does not return while its column gets larger than an `int`. -/
theorem loop_spaces {n fuel' : Nat} {ts : List Token} {cur : Cursor} {r : List Token × Cursor}
    (hn : n + 1 = 2 ^ 31) (hcol : cur.col = cur.pos + 1) (hlt : cur.pos < n) :
    loop .running (tokenizeStep ct (List.replicate n 0x20) fuel) fuel' (ts, cur) ≠ .ok r := by
  induction fuel' generalizing ts cur with
  | zero =>
      intro h
      cases h
  | succ fuel' ih =>
      intro h
      have hc : (List.replicate n (0x20 : UInt8))[cur.pos]? = some 0x20 := List.getElem?_replicate_of_lt hlt
      obtain ⟨next, hnext, h1⟩ := bind_eq_ok h
      rw [tokenizeStep, if_pos (by rw [List.length_replicate]; exact hlt)] at hnext
      obtain ⟨r1, hstep, hagain⟩ := bind_eq_ok hnext
      cases hagain
      obtain ⟨hpos1, hcol1, hint⟩ := advance_eq_ok (step_space hc hstep)
      exact ih (by omega) (by omega) h1

theorem plain_replicate (n : Nat) : Plain (List.replicate n 0x20) := by
  have hspace : ∀ {c}, c ≠ 0x20 → c ∉ List.replicate n (0x20 : UInt8) :=
    fun hc hmem => hc (List.eq_of_mem_replicate hmem)
  refine ⟨?_, hspace (by decide), hspace (by decide), hspace (by decide), fun h => ?_⟩
  · intro c hc
    rw [List.eq_of_mem_replicate hc]
    decide
  · exact hspace (by decide) (h.subset List.mem_cons_self)

theorem tokenize_spaces {n : Nat} (hn : n + 1 = 2 ^ 31) {r : List Token × Cursor} :
    tokenize ct (List.replicate n 0x20) fuel ≠ .ok r := by
  intro h
  rw [tokenize] at h
  cases hloop : loop .running (tokenizeStep ct (List.replicate n 0x20) fuel) fuel ([], .start) with
  | error e =>
      rw [hloop] at h
      cases h
  | ok s => exact loop_spaces hn rfl (by simp only [Cursor.start]; omega) hloop

/-- `2 ^ 31 - 1` spaces: the column of the end would be `2 ^ 31`. -/
theorem tokenize_spaces_overflow :
    (List.replicate (2 ^ 31 - 1) (0x20 : UInt8)).length < 2 ^ 31 ∧ Plain (List.replicate (2 ^ 31 - 1) 0x20) ∧
      ∀ fuel r, tokenize .c (List.replicate (2 ^ 31 - 1) 0x20) fuel ≠ .ok r := by
  refine ⟨?_, plain_replicate _, fun fuel r => tokenize_spaces (by omega)⟩
  rw [List.length_replicate]
  omega

end Dwhbll.Tokenizer
