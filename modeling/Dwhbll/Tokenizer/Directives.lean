import Dwhbll.Tokenizer.Lemmas.Branches

/-!
# Preprocessor text

Behind a `#` the tokenizer skips white space, newlines among it. If no name follows there, it also steps over the
character that it has found instead.
-/

namespace Dwhbll.Tokenizer

open Loops

variable {ct : CType} {source s : Bytes} {cur : Cursor} {fuel : Nat}

/-! ## Lines with continuations -/

/-- The text up to the first newline that has no backslash before it. -/
def logicalLine : (escaped : Bool) → Bytes → Bytes
  | _, [] => []
  | escaped, c :: rest => if c = newline ∧ escaped = false then [] else c :: logicalLine (c == backslash) rest

/-- A directive behind its name: it ends before a newline, or with the source, and a backslash takes a newline with it. -/
def directiveAct (c : UInt8) (next : Option UInt8) : Reading.Act :=
  if c = newline then .stop 0
  else if c = backslash ∧ next = some newline then .go 1 1
  else .go 0 0

theorem directiveAct_near : Reading.Near directiveAct := by
  intro c next n h
  unfold directiveAct at h
  split at h
  · cases h
    exact Nat.zero_le _
  · split at h <;> cases h

theorem logicalLine_append {v : Bytes} (hnew : newline ∉ v) (hback : backslash ∉ v) (w : Bytes) :
    logicalLine false (v ++ w) = v ++ logicalLine false w := by
  induction v with
  | nil => rfl
  | cons c v ih =>
      rw [List.mem_cons, not_or] at hnew hback
      have hc : (c == backslash) = false := beq_eq_false_iff_ne.mpr (Ne.symm hback.1)
      rw [List.cons_append, logicalLine, if_neg fun h => hnew.1 h.1.symm, hc, ih hnew.2 hback.2, List.cons_append]

/-- Before another character it does not matter whether a backslash stands there. -/
theorem logicalLine_escaped (h : s.head? ≠ some newline) (escaped : Bool) :
    logicalLine escaped s = logicalLine false s := by
  cases s with
  | nil => rfl
  | cons c rest =>
      have hc : c ≠ newline := fun hc => h (congrArg some hc)
      rw [logicalLine, logicalLine, if_neg fun h => hc h.1, if_neg fun h => hc h.1]

/-- A continuation, or another character of the line. -/
theorem directiveAct_cases {c : UInt8} (rest : Bytes) (hnew : c ≠ newline) :
    c = backslash ∧ (∃ more, rest = newline :: more) ∨
      directiveAct c rest.head? = .go 0 0 ∧ logicalLine false (c :: rest) = c :: logicalLine false rest := by
  by_cases hcont : c = backslash ∧ rest.head? = some newline
  · exact .inl ⟨hcont.1, List.head?_eq_some_iff.mp hcont.2⟩
  · refine .inr ⟨by rw [directiveAct, if_neg hnew, if_neg hcont], ?_⟩
    rw [logicalLine, if_neg fun h => hnew h.1]
    by_cases hback : c = backslash
    · rw [logicalLine_escaped (fun h => hcont ⟨hback, h⟩) (c == backslash)]
    · rw [beq_eq_false_iff_ne.mpr hback]

/-- The loop over a directive reads a line with its continuations, and counts what continues it. -/
theorem logicalLine_eq_take (s : Bytes) :
    logicalLine false s = s.take (Reading.length directiveAct 0 s) ∧
      (logicalLine false s).count newline = Reading.counted directiveAct 0 s := by
  match s with
  | [] => exact ⟨rfl, rfl⟩
  | c :: rest =>
      by_cases hnew : c = newline
      · subst hnew
        exact ⟨rfl, rfl⟩
      rcases directiveAct_cases rest hnew with ⟨rfl, more, rfl⟩ | ⟨hact, hline⟩
      · obtain ⟨htake, hcount⟩ := logicalLine_eq_take more
        have hline : logicalLine false (backslash :: newline :: more) =
            backslash :: newline :: logicalLine false more := rfl
        rw [hline]
        refine ⟨congrArg (backslash :: newline :: ·) htake, ?_⟩
        rw [List.count_cons_of_ne hnew, List.count_cons_self, hcount]
        rfl
      · obtain ⟨htake, hcount⟩ := logicalLine_eq_take rest
        rw [hline, Reading.length_go hact, Reading.counted_go hact, List.take_succ_cons, ← htake,
          List.count_cons_of_ne hnew, hcount]
        exact ⟨rfl, rfl⟩
termination_by s.length

theorem ensures_directiveStep (source : Bytes) (cur : Cursor) :
    Ensures (directiveStep source cur) (Follows directiveAct source cur) := by
  refine Ensures.bind (ensures_ifAt source true cur.pos (· != newline)) fun r hr => ?_
  cases r with
  | true =>
      obtain ⟨-, c, hc, hne⟩ := hr.mp rfl
      have hnew : c ≠ newline := bne_iff_ne.mp hne
      refine ensures_charAt.bind fun d hd => ?_
      obtain rfl : c = d := Option.some.inj (hc.symm.trans hd)
      refine Ensures.bind (ensures_ifAt source (c == backslash) (cur.pos + 1) (· == newline)) fun r hr => ?_
      split
      · rename_i htrue
        obtain ⟨hback, hnext⟩ := pair_of_ifAt (hr.mp htrue)
        refine (ensures_newLine_moved cur 2).bind fun cur1 ⟨hpos1, hmoved1⟩ => .pure ?_
        have hact : directiveAct c source[cur.pos + 1]? = .go 1 1 := by
          rw [directiveAct, if_neg hnew, if_pos ⟨beq_iff_eq.mp hback, hnext⟩]
        exact .go hc hact (by omega) hmoved1
      · rename_i hfalse
        refine (ensures_advance_moved cur 1).bind fun cur1 ⟨hpos1, hmoved1⟩ => .pure ?_
        have hact : directiveAct c source[cur.pos + 1]? = .go 0 0 := by
          rw [directiveAct, if_neg hnew, if_neg]
          rintro ⟨hback, hnext⟩
          exact hfalse (hr.mpr ⟨beq_iff_eq.mpr hback, newline, hnext, beq_self_eq_true newline⟩)
        exact .go hc hact hpos1 hmoved1
  | false =>
      refine .pure ?_
      cases hc : source[cur.pos]? with
      | none => exact .out (List.getElem?_eq_none_iff.mp hc)
      | some c =>
          have hnew : c = newline := by
            refine Decidable.not_not.mp fun hne => ?_
            exact absurd (hr.mpr ⟨rfl, c, hc, bne_iff_ne.mpr hne⟩) Bool.false_ne_true
          exact .stop hc (if_pos hnew) rfl (.refl cur)

/-! ## Behind a `#` -/

/-- White space on a line. -/
def isBlank (ct : CType) (c : UInt8) : Bool := ct.isspace c && c != newline

def afterName (ct : CType) (rest : Bytes) : Bytes :=
  (rest.dropWhile ct.isspace).dropWhile (isIdentContinue ct)

/-- What the tokenizer takes for a directive, behind its `#`. -/
def directiveText (ct : CType) (rest : Bytes) : Bytes :=
  rest.takeWhile ct.isspace ++ ((rest.dropWhile ct.isspace).takeWhile (isIdentContinue ct) ++
    logicalLine false (afterName ct rest))

def StartsName (ct : CType) (s : Bytes) : Prop := ∃ c, s.head? = some c ∧ isIdentStart ct c = true

def directiveTypes : List TokenType := [.ppInclude, .ppDefine, .ppOther]

/-- What an iteration makes of a `#` with a name somewhere behind it. -/
structure PushesDirective (ct : CType) (source : Bytes) (cur : Cursor) (r : Option Token × Cursor) (t : Token) :
    Prop where
  scanned : Scanned source cur (Reading.counted directiveAct 0 (afterName ct (source.drop (cur.pos + 1)))) r t
  type_mem : t.type ∈ directiveTypes
  text_eq : t.value = hashSign :: directiveText ct (source.drop (cur.pos + 1))
  end_eq : min r.2.pos source.length = cur.pos + t.value.length

/-- What it makes of one without. -/
structure PushesSign (ct : CType) (source : Bytes) (cur : Cursor) (r : Option Token × Cursor) (t : Token) : Prop where
  token : r.1 = some t
  type_eq : t.type = .operator
  value_eq : t.value = [hashSign]
  pos_eq : r.2.pos = cur.pos + 1 + ((source.drop (cur.pos + 1)).takeWhile ct.isspace).length + 1
  line_eq : r.2.line = cur.line
  col_eq : r.2.col + 1 = cur.col + (r.2.pos - cur.pos)

theorem directiveText_parts (ct : CType) (rest : Bytes) :
    ∃ a b : Bytes, a = rest.takeWhile ct.isspace ∧ b = (rest.dropWhile ct.isspace).takeWhile (isIdentContinue ct) ∧
      rest = a ++ (b ++ afterName ct rest) ∧ directiveText ct rest = a ++ (b ++ logicalLine false (afterName ct rest)) := by
  refine ⟨_, _, rfl, rfl, ?_, rfl⟩
  rw [afterName, List.takeWhile_append_dropWhile, List.takeWhile_append_dropWhile]

/-- The token of a directive, when its loop has come to `cur'`. -/
theorem directive_value {cur' : Cursor} {type : TokenType} (hc : source[cur.pos]? = some hashSign)
    (hend : min cur'.pos source.length = cur.pos + 1 +
      ((source.drop (cur.pos + 1)).length - (afterName ct (source.drop (cur.pos + 1))).length) +
        Reading.length directiveAct 0 (afterName ct (source.drop (cur.pos + 1)))) :
    (pieceToken source type cur.pos cur').value = hashSign :: directiveText ct (source.drop (cur.pos + 1)) ∧
      min cur'.pos source.length = cur.pos + (pieceToken source type cur.pos cur').value.length := by
  rw [pieceToken_value, drop_of_getElem? hc]
  generalize source.drop (cur.pos + 1) = rest at *
  obtain ⟨a, b, -, -, hrest, htext⟩ := directiveText_parts ct rest
  have hle := Reading.length_le directiveAct_near 0 (afterName ct rest)
  have hlen : rest.length = a.length + (b.length + (afterName ct rest).length) := by
    rw [← List.length_append, ← List.length_append, ← hrest]
  have hcount : min cur'.pos source.length - cur.pos =
      a.length + (b.length + Reading.length directiveAct 0 (afterName ct rest)) + 1 := by omega
  have htake : rest.take (a.length + (b.length + Reading.length directiveAct 0 (afterName ct rest))) =
      directiveText ct rest := by
    rw [htext, (logicalLine_eq_take _).1, ← List.take_length_add_append, ← List.take_length_add_append, ← hrest]
  rw [hcount, List.take_succ_cons, htake]
  refine ⟨rfl, ?_⟩
  rw [← htake, List.length_cons, List.length_take_of_le (by omega)]
  omega

theorem ensures_directive (hc : source[cur.pos]? = some hashSign) :
    Ensures (directive ct source fuel cur) fun r => ∃ t,
      StartsName ct ((source.drop (cur.pos + 1)).dropWhile ct.isspace) ∧ PushesDirective ct source cur r t ∨
        ¬ StartsName ct ((source.drop (cur.pos + 1)).dropWhile ct.isspace) ∧ PushesSign ct source cur r t := by
  have hlt := lt_of_getElem? hc
  refine (ensures_advance_moved cur 1).bind fun cur1 ⟨hpos1, hmoved1⟩ => ?_
  refine (ensures_scan ct.isspace fuel cur1).bind fun cur2 ⟨hpos2, hmoved2⟩ => ?_
  have hdrop2 := drop_scan hpos2
  rw [hpos1] at hpos2 hdrop2
  refine Ensures.bind (ensures_ifAt source true cur2.pos (isIdentStart ct)) fun r hr => ?_
  have hstarts : r = true ↔ StartsName ct ((source.drop (cur.pos + 1)).dropWhile ct.isspace) := by
    rw [hr, and_iff_right rfl, ← hdrop2, StartsName, List.head?_drop]
  cases r with
  | true =>
      refine (ensures_scan (isIdentContinue ct) fuel cur2).bind fun cur3 ⟨hpos3, hmoved3⟩ => ?_
      have hdrop3 : source.drop cur3.pos = afterName ct (source.drop (cur.pos + 1)) := by
        rw [drop_scan hpos3, hdrop2, afterName]
      rw [hdrop2] at hpos3
      refine .bind_any fun dir => ?_
      refine Ensures.bind (ensures_reading directiveAct_near (ensures_directiveStep source) fuel cur3)
        fun cur4 hread => ?_
      have hlen := hread.pos_eq
      have hmoved4 := hread.moved
      rw [hdrop3] at hlen hmoved4
      have hrest : (source.drop (cur.pos + 1)).length = source.length - (cur.pos + 1) := List.length_drop
      obtain ⟨a, b, ha, hb, hparts, -⟩ := directiveText_parts ct (source.drop (cur.pos + 1))
      have hsum := congrArg List.length hparts
      rw [List.length_append, List.length_append] at hsum
      rw [← ha] at hpos2
      rw [← hb] at hpos3
      have hmoved := hmoved2.trans (hmoved3.trans hmoved4)
      rw [Nat.zero_add, Nat.zero_add] at hmoved
      refine (ensures_piece_eq _ cur.pos cur4).mono fun r hr => ?_
      subst hr
      have hend4 : min cur4.pos source.length = cur.pos + 1 +
          ((source.drop (cur.pos + 1)).length - (afterName ct (source.drop (cur.pos + 1))).length) +
            Reading.length directiveAct 0 (afterName ct (source.drop (cur.pos + 1))) := by omega
      obtain ⟨hvalue, hend⟩ := directive_value hc hend4
      refine ⟨_, .inl ⟨hstarts.mp rfl, scanned_piece source _ Nat.one_pos hpos1 hmoved1 hmoved, ?_, hvalue, hend⟩⟩
      show (if dir = text "include" then _ else if dir = text "define" then _ else _) ∈ directiveTypes
      split
      · decide
      · split <;> decide
  | false =>
      have hmoved := hmoved1.trans hmoved2
      have hcol := hmoved.col_eq rfl
      refine (ensures_move cur2 1).bind fun cur3 hcur3 => .pure ?_
      subst hcur3
      refine ⟨_, .inr ⟨?_, rfl, rfl, rfl, by rw [← hpos2], hmoved.line_eq, by simp only; omega⟩⟩
      rw [← hstarts]
      exact Bool.false_ne_true

/-! ## Blanks -/

theorem CType.isspace_backslash (ct : CType) : ct.isspace backslash = false := ct.isspace_ascii backslash (by decide)

theorem isIdentContinue_backslash (ct : CType) : isIdentContinue ct backslash = false := by
  rw [isIdentContinue, isIdentStart, ct.isalpha_ascii backslash (by decide), ct.isdigit_ascii backslash (by decide)]
  rfl

theorem isBlank_iff {c : UInt8} : isBlank ct c = true ↔ ct.isspace c = true ∧ c ≠ newline := by
  rw [isBlank, Bool.and_eq_true, bne_iff_ne]

/-- The white space behind a `#` begins with the blanks on its line. -/
theorem dropWhile_isspace (ct : CType) (rest : Bytes) :
    rest.takeWhile ct.isspace =
        rest.takeWhile (isBlank ct) ++ (rest.dropWhile (isBlank ct)).takeWhile ct.isspace ∧
      rest.dropWhile ct.isspace = (rest.dropWhile (isBlank ct)).dropWhile ct.isspace := by
  have hall : ∀ c ∈ rest.takeWhile (isBlank ct), ct.isspace c = true := fun c hc =>
    (isBlank_iff.mp (List.mem_takeWhile_imp hc)).1
  have hparts : rest = rest.takeWhile (isBlank ct) ++ rest.dropWhile (isBlank ct) :=
    List.takeWhile_append_dropWhile.symm
  constructor
  · calc rest.takeWhile ct.isspace
      _ = (rest.takeWhile (isBlank ct) ++ rest.dropWhile (isBlank ct)).takeWhile ct.isspace := by rw [← hparts]
      _ = _ := List.takeWhile_append_of_pos hall
  · calc rest.dropWhile ct.isspace
      _ = (rest.takeWhile (isBlank ct) ++ rest.dropWhile (isBlank ct)).dropWhile ct.isspace := by rw [← hparts]
      _ = _ := List.dropWhile_append_of_pos hall

/-- An identifier follows on the line of the `#`. -/
def NameFollows (ct : CType) (rest : Bytes) : Prop := StartsName ct (rest.dropWhile (isBlank ct))

/-- Then the skipped white space is on that line. -/
theorem NameFollows.dropWhile_isspace {rest : Bytes} (h : NameFollows ct rest) :
    rest.takeWhile ct.isspace = rest.takeWhile (isBlank ct) ∧
      rest.dropWhile ct.isspace = rest.dropWhile (isBlank ct) := by
  obtain ⟨c, hc, hstart⟩ := h
  have hnew : c ≠ newline := by
    rintro rfl
    rw [isIdentStart_newline] at hstart
    cases hstart
  have hspace : ¬ ct.isspace c = true := by
    intro hspace
    have hblank := Lists.of_head?_dropWhile hc
    rw [isBlank_iff.mpr ⟨hspace, hnew⟩] at hblank
    cases hblank
  obtain ⟨htake, hdrop⟩ := Tokenizer.dropWhile_isspace ct rest
  cases hz : rest.dropWhile (isBlank ct) with
  | nil =>
      rw [hz] at hc
      cases hc
  | cons d z =>
      rw [hz] at hc htake hdrop
      cases hc
      rw [List.takeWhile_cons_of_neg hspace, List.append_nil] at htake
      rw [List.dropWhile_cons_of_neg hspace] at hdrop
      exact ⟨htake, hdrop⟩

theorem NameFollows.directiveText_eq {rest : Bytes} (h : NameFollows ct rest) :
    directiveText ct rest = logicalLine false rest := by
  have htake := h.dropWhile_isspace.1
  obtain ⟨a, b, ha, hb, hrest, htext⟩ := directiveText_parts ct rest
  have hblank : isBlank ct newline = false := by
    rw [isBlank, bne_self_eq_false, Bool.and_false]
  have hnew : newline ∉ a := by
    rw [ha, htake]
    exact Lists.not_mem_takeWhile hblank rest
  have hback : backslash ∉ a := by
    rw [ha]
    exact Lists.not_mem_takeWhile ct.isspace_backslash rest
  have hnew' : newline ∉ b := by
    rw [hb]
    exact Lists.not_mem_takeWhile (isIdentContinue_newline ct) _
  have hback' : backslash ∉ b := by
    rw [hb]
    exact Lists.not_mem_takeWhile (isIdentContinue_backslash ct) _
  have hline := congrArg (logicalLine false) hrest
  rw [logicalLine_append hnew hback, logicalLine_append hnew' hback'] at hline
  rw [htext, hline]

/-! ## When a `#` is handled as it should be -/

/-- With a name on its line it begins a directive that ends with the line and its continuations. Without one it is an
operator, and the cursor steps over nothing but blanks. -/
structure HandlesSign (ct : CType) (source : Bytes) (cur : Cursor) (r : Option Token × Cursor) (t : Token) : Prop where
  token : r.1 = some t
  directive : NameFollows ct (source.drop (cur.pos + 1)) → t.type ∈ directiveTypes ∧
    t.value = hashSign :: logicalLine false (source.drop (cur.pos + 1)) ∧
    min r.2.pos source.length = cur.pos + t.value.length
  sign : ¬ NameFollows ct (source.drop (cur.pos + 1)) → t.type = .operator ∧ t.value = [hashSign] ∧
    ∀ i, cur.pos < i → i < r.2.pos → ∀ c, source[i]? = some c → isBlank ct c = true

variable {r : Option Token × Cursor} {t : Token}

theorem PushesDirective.handlesSign (h : PushesDirective ct source cur r t)
    (hname : NameFollows ct (source.drop (cur.pos + 1))) : HandlesSign ct source cur r t where
  token := h.scanned.token
  directive _ := ⟨h.type_mem, by rw [h.text_eq, hname.directiveText_eq], h.end_eq⟩
  sign hno := absurd hname hno

/-- Behind the `#` there are only blanks. -/
theorem PushesSign.handlesSign (h : PushesSign ct source cur r t)
    (hblank : (source.drop (cur.pos + 1)).dropWhile (isBlank ct) = []) : HandlesSign ct source cur r t where
  token := h.token
  directive := by
    rintro ⟨c, hc, -⟩
    rw [hblank] at hc
    cases hc
  sign _ := by
    refine ⟨h.type_eq, h.value_eq, fun i hi _ c hc => ?_⟩
    have hall : (source.drop (cur.pos + 1)).takeWhile (isBlank ct) = source.drop (cur.pos + 1) := by
      have happend := List.takeWhile_append_dropWhile (p := isBlank ct) (l := source.drop (cur.pos + 1))
      rwa [hblank, List.append_nil] at happend
    have hget : (source.drop (cur.pos + 1))[i - (cur.pos + 1)]? = some c := by
      rw [List.getElem?_drop, ← hc]
      congr 1
      omega
    have hmem := List.mem_of_getElem? hget
    rw [← hall] at hmem
    exact List.mem_takeWhile_imp hmem

/-- The first character behind the blanks is stepped over. -/
theorem PushesSign.steps_over (h : PushesSign ct source cur r t) {d : UInt8}
    (hd : ((source.drop (cur.pos + 1)).dropWhile (isBlank ct)).head? = some d) :
    ∃ i, cur.pos < i ∧ i < r.2.pos ∧ source[i]? = some d := by
  have htake := congrArg List.length (dropWhile_isspace ct (source.drop (cur.pos + 1))).1
  rw [List.length_append] at htake
  have hpos := h.pos_eq
  refine ⟨cur.pos + 1 + ((source.drop (cur.pos + 1)).takeWhile (isBlank ct)).length, by omega, by omega, ?_⟩
  rw [← List.getElem?_drop, ← hd, ← Lists.drop_takeWhile, List.head?_drop]

/-- For every `#` that `tokenize` handles: it makes the directive of the line, or it makes an operator and loses nothing,
if and only if a name follows on the line, or nothing but blanks to the end of the source. -/
theorem directive_iff (h : Reached ct source fuel cur) (hc : source[cur.pos]? = some hashSign) :
    Settles ct source fuel cur fun r => (∃ t, HandlesSign ct source cur r t) ↔
      NameFollows ct (source.drop (cur.pos + 1)) ∨ (source.drop (cur.pos + 1)).dropWhile (isBlank ct) = [] := by
  refine .of_ensures h (lt_of_getElem? hc) ?_
  rw [step_of_hashSign hc]
  refine (ensures_directive hc).mono fun r ⟨t, ht⟩ => ?_
  constructor
  · rintro ⟨t', ht'⟩
    by_cases hname : NameFollows ct (source.drop (cur.pos + 1))
    · exact .inl hname
    · obtain ⟨htype, -, hblank⟩ := ht'.sign hname
      refine .inr ?_
      rcases ht with ⟨-, ht⟩ | ⟨-, ht⟩
      · obtain rfl := Option.some.inj (ht.scanned.token.symm.trans ht'.token)
        have hmem := ht.type_mem
        rw [htype] at hmem
        exact absurd hmem (by decide)
      · cases hz : (source.drop (cur.pos + 1)).dropWhile (isBlank ct) with
        | nil => rfl
        | cons d z =>
            obtain ⟨i, hi, hi', hd⟩ := ht.steps_over (congrArg List.head? hz)
            have hfalse := Lists.of_head?_dropWhile (congrArg List.head? hz)
            rw [hblank i hi hi' d hd] at hfalse
            cases hfalse
  · rintro (hname | hblank)
    · rcases ht with ⟨-, ht⟩ | ⟨hno, -⟩
      · exact ⟨t, ht.handlesSign hname⟩
      · rw [hname.dropWhile_isspace.2] at hno
        exact absurd hname hno
    · rcases ht with ⟨⟨c, hc, -⟩, -⟩ | ⟨-, ht⟩
      · rw [(dropWhile_isspace ct _).2, hblank] at hc
        cases hc
      · exact ⟨t, ht.handlesSign hblank⟩

theorem directive_iff_include : Settles .c (text "# include <a>\nb") 20 .start fun r =>
    (∃ t, HandlesSign .c (text "# include <a>\nb") .start r t) ↔
      NameFollows .c (text " include <a>\nb") ∨ (text " include <a>\nb").dropWhile (isBlank .c) = [] :=
  directive_iff .start rfl

/-- A `#` alone on its line makes the next line a directive, and one before a parenthesis loses it. -/
theorem directive_absorbs :
    step .c (text "#\nx y") 9 .start = .ok (some ⟨.ppOther, text "#\nx y", 1, 1⟩, ⟨5, 1, 6, 5⟩) ∧
      step .c (text "#(x)") 9 .start = .ok (some ⟨.operator, text "#", 1, 1⟩, ⟨2, 1, 2, 2⟩) ∧
      ¬ (∃ t, HandlesSign .c (text "#\nx y") .start (some ⟨.ppOther, text "#\nx y", 1, 1⟩, ⟨5, 1, 6, 5⟩) t) ∧
      ¬ (∃ t, HandlesSign .c (text "#(x)") .start (some ⟨.operator, text "#", 1, 1⟩, ⟨2, 1, 2, 2⟩) t) := by
  refine ⟨by rfl, by rfl, ?_, ?_⟩
  · rintro ⟨t, ht⟩
    have hno : ¬ NameFollows .c (text "\nx y") := by
      rintro ⟨c, hc, hstart⟩
      cases hc
      exact absurd hstart (by decide)
    obtain rfl := Option.some.inj ht.token
    exact absurd (ht.sign hno).1 (by decide)
  · rintro ⟨t, ht⟩
    have hno : ¬ NameFollows .c (text "(x)") := by
      rintro ⟨c, hc, hstart⟩
      cases hc
      exact absurd hstart (by decide)
    exact absurd ((ht.sign hno).2.2 1 (by decide) (by decide) 0x28 rfl) (by decide)

end Dwhbll.Tokenizer
