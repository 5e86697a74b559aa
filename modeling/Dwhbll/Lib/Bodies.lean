/-!
# Bodies that call one another

A body is known by what it does next: it returns, it calls another body and goes on with what that returns, it asks for
something and goes on with the answer, or it starts another body beside it. What a body comes to is said in direct style
(`Evaluates`), and step by step with the callers on a stack (`Thread.Step`).

A thread may be cancelled. From then on a call or a question may come back with an exception of its own, whatever its
outcome was.
-/

namespace Bodies

inductive Todo (β ω ε κ : Type) where
  | ret (o : Except ε ω)
  | call (child : β) (k : Except ε ω → β)
  | ask (q : κ) (k : Except ε ω → β)
  | spawn (child : β) (k : β)

structure Language (β ω ε κ : Type) where
  next : β → Todo β ω ε κ
  /-- What a call that was cancelled throws. -/
  cancellation : ε

variable {β ω ε κ : Type} {L : Language β ω ε κ} {C C' : Prop} {b c root : β} {k : Except ε ω → β} {q : κ} {v : ω}
  {o r : Except ε ω} {es tr : List (κ × Except ε ω)}

/-- What the one who waits gets to see of an outcome. -/
def Language.Seen (L : Language β ω ε κ) (C : Prop) (o r : Except ε ω) : Prop := r = o ∨ C ∧ r = .error L.cancellation

/-- What a body comes to, with the questions that are asked on the way and what is seen of the answers. -/
inductive Evaluates (L : Language β ω ε κ) (C : Prop) : β → List (κ × Except ε ω) → Except ε ω → Prop where
  | ret {b : β} {o : Except ε ω} : L.next b = .ret o → Evaluates L C b [] o
  | call {b c : β} {k : Except ε ω → β} {o r r' : Except ε ω} {tr tr' : List (κ × Except ε ω)} :
      L.next b = .call c k → Evaluates L C c tr o → L.Seen C o r → Evaluates L C (k r) tr' r' →
      Evaluates L C b (tr ++ tr') r'
  | ask {b : β} {q : κ} {k : Except ε ω → β} {v : ω} {r r' : Except ε ω} {tr : List (κ × Except ε ω)} :
      L.next b = .ask q k → L.Seen C (.ok v) r → Evaluates L C (k r) tr r' → Evaluates L C b ((q, r) :: tr) r'
  | spawn {b c k : β} {r : Except ε ω} {tr : List (κ × Except ε ω)} :
      L.next b = .spawn c k → Evaluates L C k tr r → Evaluates L C b tr r

/-! ## Callers on a stack -/

inductive Control (β ω ε κ : Type) where
  | body (b : β)
  | asking (q : κ) (k : Except ε ω → β)
  | returning (o : Except ε ω)

/-- The callers are the ones that wait, the innermost first. -/
structure Thread (β ω ε κ : Type) where
  control : Control β ω ε κ
  callers : List (Except ε ω → β)

inductive Thread.Step (L : Language β ω ε κ) (C : Prop) :
    Thread β ω ε κ → List (κ × Except ε ω) → Thread β ω ε κ → Prop where
  | ret {b : β} {o : Except ε ω} {ks : List (Except ε ω → β)} :
      L.next b = .ret o → Step L C ⟨.body b, ks⟩ [] ⟨.returning o, ks⟩
  | call {b c : β} {k : Except ε ω → β} {ks : List (Except ε ω → β)} :
      L.next b = .call c k → Step L C ⟨.body b, ks⟩ [] ⟨.body c, k :: ks⟩
  | resume {o r : Except ε ω} {k : Except ε ω → β} {ks : List (Except ε ω → β)} :
      L.Seen C o r → Step L C ⟨.returning o, k :: ks⟩ [] ⟨.body (k r), ks⟩
  | ask {b : β} {q : κ} {k : Except ε ω → β} {ks : List (Except ε ω → β)} :
      L.next b = .ask q k → Step L C ⟨.body b, ks⟩ [] ⟨.asking q k, ks⟩
  | answer {q : κ} {k : Except ε ω → β} {ks : List (Except ε ω → β)} {v : ω} {r : Except ε ω} :
      L.Seen C (.ok v) r → Step L C ⟨.asking q k, ks⟩ [(q, r)] ⟨.body (k r), ks⟩
  | spawn {b c k : β} {ks : List (Except ε ω → β)} :
      L.next b = .spawn c k → Step L C ⟨.body b, ks⟩ [] ⟨.body k, ks⟩

/-- What is returned through the callers comes to `r`. -/
def Returns (L : Language β ω ε κ) (C : Prop) :
    List (Except ε ω → β) → Except ε ω → List (κ × Except ε ω) → Except ε ω → Prop
  | [], o, tr, r => tr = [] ∧ r = o
  | k :: ks, o, tr, r => ∃ o₁ o₂ tr₁ tr₂, L.Seen C o o₁ ∧ Evaluates L C (k o₁) tr₁ o₂ ∧ Returns L C ks o₂ tr₂ r ∧ tr = tr₁ ++ tr₂

/-- What a thread comes to, with what it has yet to ask. -/
def Thread.Finishes (L : Language β ω ε κ) (C : Prop) (T : Thread β ω ε κ) (tr : List (κ × Except ε ω))
    (r : Except ε ω) : Prop :=
  match T.control with
  | .body b => ∃ o tr₁ tr₂, Evaluates L C b tr₁ o ∧ Returns L C T.callers o tr₂ r ∧ tr = tr₁ ++ tr₂
  | .asking q k => ∃ v o₁ o₂ tr₁ tr₂, L.Seen C (.ok v) o₁ ∧ Evaluates L C (k o₁) tr₁ o₂ ∧
      Returns L C T.callers o₂ tr₂ r ∧ tr = (q, o₁) :: tr₁ ++ tr₂
  | .returning o => Returns L C T.callers o tr r

variable {T T' : Thread β ω ε κ}

theorem Language.Seen.mono (h : L.Seen C o r) (hC : C → C') : L.Seen C' o r := h.imp_right fun hc => ⟨hC hc.1, hc.2⟩

theorem Evaluates.mono (h : Evaluates L C b tr r) (hC : C → C') : Evaluates L C' b tr r := by
  induction h with
  | ret hb => exact .ret hb
  | call hb _ hs _ ihc ihk => exact .call hb ihc (hs.mono hC) ihk
  | ask hb hs _ ih => exact .ask hb (hs.mono hC) ih
  | spawn hb _ ih => exact .spawn hb ih

theorem Thread.Step.mono (h : T.Step L C es T') (hC : C → C') : T.Step L C' es T' := by
  cases h with
  | ret hb => exact .ret hb
  | call hb => exact .call hb
  | resume hs => exact .resume (hs.mono hC)
  | ask hb => exact .ask hb
  | answer hs => exact .answer (hs.mono hC)
  | spawn hb => exact .spawn hb

/-- A step of a thread leads to what the thread comes to. -/
theorem Thread.Step.finishes (h : T.Step L C es T') (hf : T'.Finishes L C tr r) : T.Finishes L C (es ++ tr) r := by
  cases h with
  | ret hb => exact ⟨_, [], tr, .ret hb, hf, rfl⟩
  | call hb =>
      obtain ⟨o, tr₁, tr₂, hc, ⟨o₁, o₂, tr₃, tr₄, hs, hk, hret, rfl⟩, rfl⟩ := hf
      exact ⟨o₂, tr₁ ++ tr₃, tr₄, .call hb hc hs hk, hret, by rw [List.nil_append, List.append_assoc]⟩
  | resume hs =>
      obtain ⟨o₂, tr₁, tr₂, hk, hret, rfl⟩ := hf
      exact ⟨_, o₂, tr₁, tr₂, hs, hk, hret, rfl⟩
  | ask hb =>
      obtain ⟨v, o₁, o₂, tr₁, tr₂, hs, hk, hret, rfl⟩ := hf
      exact ⟨o₂, _, tr₂, .ask hb hs hk, hret, rfl⟩
  | answer hs =>
      obtain ⟨o₂, tr₁, tr₂, hk, hret, rfl⟩ := hf
      exact ⟨_, _, o₂, tr₁, tr₂, hs, hk, hret, rfl⟩
  | spawn hb =>
      obtain ⟨o, tr₁, tr₂, hk, hret, rfl⟩ := hf
      exact ⟨o, tr₁, tr₂, .spawn hb hk, hret, rfl⟩

/-! ## A thread on the way -/

/-- Whatever the thread comes to from here, and however often it is cancelled, its root comes to it, with what has been
asked so far. -/
def Open (L : Language β ω ε κ) (C : Prop) (root : β) (es : List (κ × Except ε ω)) (T : Thread β ω ε κ) : Prop :=
  ∀ C' : Prop, (C → C') → ∀ tr r, T.Finishes L C' tr r → Evaluates L C' root (es ++ tr) r

theorem Open.start : Open L C root [] ⟨.body root, []⟩ := by
  rintro C' - tr r ⟨o, tr₁, tr₂, h, ⟨rfl, rfl⟩, rfl⟩
  rwa [List.nil_append, List.append_nil]

theorem Open.step {es' : List (κ × Except ε ω)} (h : Open L C root es T) (hs : T.Step L C es' T') :
    Open L C root (es ++ es') T' := by
  intro C' hC tr r hf
  rw [List.append_assoc]
  exact h C' hC _ r ((hs.mono hC).finishes hf)

theorem Open.cancel (h : Open L C root es T) (hC : C → C') : Open L C' root es T :=
  fun C'' hC' tr r hf => h C'' (fun hc => hC' (hC hc)) tr r hf

/-- The root has returned. -/
theorem Open.finish (h : Open L C root es ⟨.returning o, []⟩) : Evaluates L C root es o := by
  have hroot := h C id [] o ⟨rfl, rfl⟩
  rwa [List.append_nil] at hroot

end Bodies
