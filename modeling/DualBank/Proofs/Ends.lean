import DualBank.Attempt

/-! What an action comes to: the answer or the error that it ends with, and the state that it leaves
behind. The statements about attempts are put together from such facts, one step after the other.
A statement about two runs is a fact about the first run whose conclusion is a fact about the
second. -/
namespace DualBank

variable {ε S S₁ S₂ σ α β : Type}

/-- Started in `s`, the action ends so that `Q` holds of its outcome and of the state after it. -/
def Ends (x : EStateM ε S α) (s : S) (Q : Except ε α → S → Prop) : Prop :=
  match x s with
  | .ok v t => Q (.ok v) t
  | .error e t => Q (.error e) t

namespace Ends

variable {x : EStateM ε S α} {f : α → EStateM ε S β} {s t : S} {v : α} {e : ε}
  {P Q : Except ε α → S → Prop} {R : Except ε β → S → Prop}

theorem ok (h : Ends x s Q) (hx : x s = .ok v t) : Q (.ok v) t := by
  rw [Ends, hx] at h; exact h

theorem error (h : Ends x s Q) (hx : x s = .error e t) : Q (.error e) t := by
  rw [Ends, hx] at h; exact h

theorem of_ok (hx : x s = .ok v t) (h : Q (.ok v) t) : Ends x s Q := by
  rw [Ends, hx]; exact h

theorem of_error (hx : x s = .error e t) (h : Q (.error e) t) : Ends x s Q := by
  rw [Ends, hx]; exact h

/-- An action ends in some way. -/
theorem of_cases (hok : ∀ v t, x s = .ok v t → Q (.ok v) t)
    (herror : ∀ e t, x s = .error e t → Q (.error e) t) : Ends x s Q := by
  unfold Ends
  cases h : x s with
  | ok v t => exact hok v t h
  | error e t => exact herror e t h

/-- An answer is the answer of the action. -/
theorem self : Ends x s fun o t => ∀ v, o = .ok v → x s = .ok v t :=
  of_cases (fun v t hx w hw => by cases hw; exact hx) fun _ _ _ _ hw => nomatch hw

theorem outcome (h : Ends x s Q) : ∃ o t, Q o t := by
  cases hx : x s with
  | ok v t => exact ⟨_, _, h.ok hx⟩
  | error e t => exact ⟨_, _, h.error hx⟩

/-- The result of an action, put together from how it ended. -/
def result : Except ε α → S → EStateM.Result ε S α
  | .ok v, t => .ok v t
  | .error e, t => .error e t

theorem outcome_eq (h : Ends x s Q) : ∃ o t, Q o t ∧ x s = result o t := by
  cases hx : x s with
  | ok v t => exact ⟨.ok v, t, h.ok hx, rfl⟩
  | error e t => exact ⟨.error e, t, h.error hx, rfl⟩

/-- An action ends as it does. -/
theorem exactly : Ends x s fun o t => x s = result o t :=
  of_cases (fun _ _ hx => hx) fun _ _ hx => hx

theorem mono (h : Ends x s P) (hq : ∀ o t, P o t → Q o t) : Ends x s Q :=
  of_cases (fun _ _ hx => hq _ _ (h.ok hx)) fun _ _ hx => hq _ _ (h.error hx)

theorem and (hp : Ends x s P) (hq : Ends x s Q) : Ends x s fun o t => P o t ∧ Q o t :=
  of_cases (fun _ _ hx => ⟨hp.ok hx, hq.ok hx⟩) fun _ _ hx => ⟨hp.error hx, hq.error hx⟩

theorem pure (h : Q (.ok v) s) : Ends (Pure.pure v : EStateM ε S α) s Q := h

theorem throw (h : Q (.error e) s) : Ends (MonadExcept.throw e : EStateM ε S α) s Q := h

theorem bind (h : Ends x s P) (hok : ∀ v t, P (.ok v) t → Ends (f v) t R)
    (herror : ∀ e t, P (.error e) t → R (.error e) t) : Ends (x >>= f) s R := by
  cases hx : x s with
  | ok v t =>
    have hb : (x >>= f) s = f v t := by simp only [Bind.bind, EStateM.bind, hx]
    rw [Ends, hb]
    exact hok v t (h.ok hx)
  | error e t =>
    have hb : (x >>= f) s = .error e t := by simp only [Bind.bind, EStateM.bind, hx]
    rw [Ends, hb]
    exact herror e t (h.error hx)

theorem get_bind {f : S → EStateM ε S β} (h : Ends (f s) s R) :
    Ends (MonadState.get >>= f) s R := h

theorem throw_bind (h : R (.error e) s) :
    Ends ((MonadExcept.throw e : EStateM ε S α) >>= f) s R := h

/-- A check, and what follows if it is passed. -/
theorem guard {c : Prop} [Decidable c] {k : α → EStateM ε S β} {y : EStateM ε S β}
    (hfail : c → R (.error e) s) (hpass : ¬c → Ends y s R) :
    Ends (if c then MonadExcept.throw e >>= k else y) s R := by
  by_cases hc : c
  · rw [if_pos hc]; exact throw_bind (hfail hc)
  · rw [if_neg hc]; exact hpass hc

theorem ofExcept {y : Except ε α} (h : Q y s) :
    Ends (MonadExcept.ofExcept y : EStateM ε S α) s Q := by
  cases y <;> exact h

/-- The outcome of the device's part is that of the whole. -/
theorem onBoard {x : Board.Action α} {r : Rig σ} {Q : Except UpdateError α → Rig σ → Prop}
    (h : Ends x r.board fun o b => Q o { r with board := b }) : Ends (Rig.onBoard x) r Q := by
  unfold Ends Rig.onBoard
  unfold Ends at h
  cases hx : x r.board <;> simpa only [hx] using h

/-- A call of the connection is heard, and fails as a read does. -/
theorem onLink {call : σ → Answer IoKind σ α} {r : Rig σ}
    {Q : Except UpdateError α → Rig σ → Prop}
    (h : Q ((call r.link).result.mapError fun kind => .streamRead (some kind))
      (r.hear (call r.link))) : Ends (Rig.onLink call) r Q := by
  unfold Ends Rig.onLink
  dsimp only
  cases hresult : (call r.link).result with
  | ok v =>
    rw [hresult] at h
    exact h
  | error kind =>
    rw [hresult] at h
    exact h

theorem withBuffer {buffer : Bytes} {x : Rig.Action σ α} {r : Rig σ}
    {Q : Except UpdateError α → Rig σ → Prop}
    (h : Ends x { r with buffer } fun o t => Q o { t with buffer := r.buffer }) :
    Ends (Rig.withBuffer buffer x) r Q := by
  unfold Ends Rig.withBuffer
  unfold Ends at h
  cases hx : x { r with buffer } <;> simpa only [hx] using h

theorem during {stage : Stage} {x : Rig.Action σ α} {r : Rig σ}
    {Q : Except Failure α → Rig σ → Prop}
    (h : Ends x r fun o t => Q (o.mapError (Failure.mk stage)) t) :
    Ends (Attempt.during stage x) r Q := by
  unfold Ends Attempt.during
  unfold Ends at h
  cases hx : x r with
  | ok v t => rw [hx] at h; exact h
  | error e t => rw [hx] at h; exact h

/-- A stage answers what its action answers, and fails at itself. -/
theorem staged {stage : Stage} {x : Rig.Action σ α} {r : Rig σ} {Q : Bool → Rig σ → Prop}
    (h : Ends x r fun o t => Q o.isOk t) :
    Ends (Attempt.during stage x) r fun o t => Q o.isOk t ∧
      match o with
      | .ok v => x r = .ok v t
      | .error f => f.stage = stage :=
  during ((h.and self).mono fun o _ ho => by
    cases o with
    | ok v => exact ⟨ho.1, ho.2 v rfl⟩
    | error e => exact ⟨ho.1, rfl⟩)

end Ends

theorem bind_eq_ok {x : EStateM ε S α} {f : α → EStateM ε S β} {s u : S} {w : β} :
    (x >>= f) s = .ok w u ↔ ∃ v t, x s = .ok v t ∧ f v t = .ok w u := by
  simp only [Bind.bind, EStateM.bind]
  cases x s with
  | error e t => simp
  | ok v t =>
    constructor
    · intro h
      exact ⟨v, t, rfl, h⟩
    · rintro ⟨_, _, hx, h⟩
      cases hx
      exact h

theorem ofExcept_eq_ok {y : Except ε α} {s t : S} {v : α} :
    (MonadExcept.ofExcept y : EStateM ε S α) s = .ok v t ↔ y = .ok v ∧ t = s := by
  cases y with
  | ok w =>
    constructor
    · intro h
      cases h
      exact ⟨rfl, rfl⟩
    · rintro ⟨hv, rfl⟩
      cases hv
      rfl
  | error e =>
    constructor
    · intro h
      cases h
    · rintro ⟨h, _⟩
      cases h

/-- What an action answers, if it does. -/
def answer? (x : EStateM ε S α) (s : S) : Option α :=
  match x s with
  | .ok v _ => some v
  | .error _ _ => none

theorem answer?_eq_some {x : EStateM ε S α} {s : S} {v : α} :
    answer? x s = some v ↔ ∃ t, x s = .ok v t := by
  unfold answer?
  cases x s <;> simp

/-- If the action answers, then so that `P` holds of the answer and of the state after it. -/
def Yields (x : EStateM ε S α) (s : S) (P : α → S → Prop) : Prop := ∀ v t, x s = .ok v t → P v t

namespace Yields

variable {x : EStateM ε S α} {f : α → EStateM ε S β} {s : S} {P : α → S → Prop}
  {Q : β → S → Prop}

theorem of_ends {R : Except ε α → S → Prop} (h : Ends x s R)
    (hp : ∀ v t, R (.ok v) t → P v t) : Yields x s P :=
  fun v t hx => hp v t (h.ok hx)

theorem self : Yields x s fun v t => x s = .ok v t := fun _ _ => id

theorem pure {v : α} (h : P v s) : Yields (Pure.pure v : EStateM ε S α) s P := by
  intro w t hx
  cases hx
  exact h

theorem bind (hx : Yields x s P) (hf : ∀ v t, P v t → Yields (f v) t Q) :
    Yields (x >>= f) s Q := by
  intro w u hb
  cases h : x s with
  | ok v t =>
    have hv : (x >>= f) s = f v t := by simp only [Bind.bind, EStateM.bind, h]
    exact hf v t (hx v t h) w u (hv ▸ hb)
  | error e t =>
    have he : (x >>= f) s = .error e t := by simp only [Bind.bind, EStateM.bind, h]
    rw [he] at hb
    cases hb

theorem guard {c : Prop} [Decidable c] {e : ε} {k : α → EStateM ε S β} {y : EStateM ε S β}
    (hpass : ¬c → Yields y s Q) :
    Yields (if c then MonadExcept.throw e >>= k else y) s Q := by
  by_cases hc : c
  · rw [if_pos hc]
    intro w t hx
    cases hx
  · rw [if_neg hc]
    exact hpass hc

theorem ofExcept {y : Except ε α} (h : ∀ v, y = .ok v → P v s) :
    Yields (MonadExcept.ofExcept y : EStateM ε S α) s P := by
  intro w t hx
  cases y with
  | ok v => cases hx; exact h _ rfl
  | error e => cases hx

theorem onBoard {x : Board.Action α} {r : Rig σ} {P : α → Rig σ → Prop}
    (h : Yields x r.board fun v b => P v { r with board := b }) :
    Yields (Rig.onBoard x) r P := by
  intro v t hx
  unfold Rig.onBoard at hx
  cases hb : x r.board with
  | ok w b => rw [hb] at hx; cases hx; exact h _ b hb
  | error e b => rw [hb] at hx; cases hx

theorem during {stage : Stage} {x : Rig.Action σ α} {r : Rig σ} {P : α → Rig σ → Prop}
    (h : Yields x r P) : Yields (Attempt.during stage x) r P := by
  intro v t hx
  unfold Attempt.during at hx
  cases hb : x r with
  | ok w u => rw [hb] at hx; cases hx; exact h _ _ hb
  | error e u => rw [hb] at hx; cases hx

end Yields

/-- The action answers, and so that `P` holds of the answer and of the state after it. -/
def Succeeds (x : EStateM ε S α) (s : S) (P : α → S → Prop) : Prop := ∃ v t, x s = .ok v t ∧ P v t

namespace Succeeds

variable {x : EStateM ε S α} {f : α → EStateM ε S β} {s : S} {P : α → S → Prop}
  {Q : β → S → Prop}

/-- An action that does not end with an error. -/
theorem of_ends {R : Except ε α → S → Prop} (h : Ends x s R) (hok : ∀ v t, R (.ok v) t → P v t)
    (herror : ∀ e t, ¬R (.error e) t) : Succeeds x s P := by
  cases hx : x s with
  | ok v t => exact ⟨v, t, hx, hok v t (h.ok hx)⟩
  | error e t => exact absurd (h.error hx) (herror e t)

theorem pure {v : α} (h : P v s) : Succeeds (Pure.pure v : EStateM ε S α) s P := ⟨v, s, rfl, h⟩

theorem bind (hx : Succeeds x s P) (hf : ∀ v t, P v t → Succeeds (f v) t Q) :
    Succeeds (x >>= f) s Q := by
  obtain ⟨v, t, hx, hp⟩ := hx
  obtain ⟨w, u, hw, hq⟩ := hf v t hp
  exact ⟨w, u, bind_eq_ok.2 ⟨v, t, hx, hw⟩, hq⟩

theorem ofExcept {y : Except ε α} {v : α} (hy : y = .ok v) (h : P v s) :
    Succeeds (MonadExcept.ofExcept y : EStateM ε S α) s P :=
  ⟨v, s, ofExcept_eq_ok.2 ⟨hy, rfl⟩, h⟩

theorem onBoard {x : Board.Action α} {r : Rig σ} {P : α → Rig σ → Prop}
    (h : Succeeds x r.board fun v b => P v { r with board := b }) :
    Succeeds (Rig.onBoard x) r P := by
  obtain ⟨v, b, hx, hp⟩ := h
  exact ⟨v, _, by simp only [Rig.onBoard, hx], hp⟩

theorem during {stage : Stage} {x : Rig.Action σ α} {r : Rig σ} {P : α → Rig σ → Prop}
    (h : Succeeds x r P) : Succeeds (Attempt.during stage x) r P := by
  obtain ⟨v, t, hx, hp⟩ := h
  exact ⟨v, t, by simp only [Attempt.during, hx], hp⟩

end Succeeds

theorem Yields.succeeds {x : EStateM ε S α} {s : S} {P : α → S → Prop} (h : Yields x s P)
    (hx : Succeeds x s fun _ _ => True) : Succeeds x s P := by
  obtain ⟨v, t, hx, _⟩ := hx
  exact ⟨v, t, hx, h v t hx⟩

/-- From any state, the action ends in one that is related to it. -/
def Keeps (R : S → S → Prop) (x : EStateM ε S α) : Prop := ∀ s, Ends x s fun _ t => R s t

namespace Keeps

variable {R : S → S → Prop} {x : EStateM ε S α} {f : α → EStateM ε S β}

theorem pure (hr : ∀ s, R s s) (v : α) : Keeps R (Pure.pure v : EStateM ε S α) :=
  fun s => Ends.pure (hr s)

theorem throw (hr : ∀ s, R s s) (e : ε) : Keeps R (MonadExcept.throw e : EStateM ε S α) :=
  fun s => Ends.throw (hr s)

theorem ofExcept (hr : ∀ s, R s s) (y : Except ε α) :
    Keeps R (MonadExcept.ofExcept y : EStateM ε S α) :=
  fun s => Ends.ofExcept (hr s)

theorem mono {R' : S → S → Prop} (h : Keeps R x) (hr : ∀ s t, R s t → R' s t) : Keeps R' x :=
  fun s => (h s).mono fun _ t => hr s t

theorem bind (ht : ∀ {s t u}, R s t → R t u → R s u) (hx : Keeps R x) (hf : ∀ v, Keeps R (f v)) :
    Keeps R (x >>= f) := fun s =>
  (hx s).bind (fun v t h => (hf v t).mono fun _ _ h' => ht h h') fun _ _ h => h

theorem guard {c : Prop} [Decidable c] (hr : ∀ s, R s s) {e : ε} {k : α → EStateM ε S β}
    {y : EStateM ε S β} (hy : Keeps R y) :
    Keeps R (if c then MonadExcept.throw e >>= k else y) :=
  fun s => Ends.guard (fun _ => hr s) fun _ => hy s

/-- A check that comes last. -/
theorem check {c : Prop} [Decidable c] (hr : ∀ s, R s s) {e : ε} :
    Keeps R (if c then MonadExcept.throw e else Pure.pure () : EStateM ε S Unit) := fun s => by
  split
  · exact Ends.throw (hr s)
  · exact Ends.pure (hr s)

end Keeps

/-- Two actions end alike, with one outcome, so that `Q` holds of it and of the two states. -/
def EndAlike (x₁ : EStateM ε S₁ α) (s₁ : S₁) (x₂ : EStateM ε S₂ α) (s₂ : S₂)
    (Q : Except ε α → S₁ → S₂ → Prop) : Prop :=
  Ends x₁ s₁ fun o₁ t₁ => Ends x₂ s₂ fun o₂ t₂ => o₁ = o₂ ∧ Q o₁ t₁ t₂

namespace EndAlike

variable {x₁ : EStateM ε S₁ α} {x₂ : EStateM ε S₂ α} {f₁ : α → EStateM ε S₁ β}
  {f₂ : α → EStateM ε S₂ β} {s₁ : S₁} {s₂ : S₂} {P Q : Except ε α → S₁ → S₂ → Prop}
  {R : Except ε β → S₁ → S₂ → Prop}

theorem mono (h : EndAlike x₁ s₁ x₂ s₂ P) (hq : ∀ o t₁ t₂, P o t₁ t₂ → Q o t₁ t₂) :
    EndAlike x₁ s₁ x₂ s₂ Q :=
  Ends.mono h fun _ _ h₁ => h₁.mono fun _ _ ⟨he, hp⟩ => ⟨he, hq _ _ _ hp⟩

/-- Two actions whose outcomes are known. -/
theorem of_ends {P₁ : Except ε α → S₁ → Prop} {P₂ : Except ε α → S₂ → Prop} (h₁ : Ends x₁ s₁ P₁)
    (h₂ : Ends x₂ s₂ P₂)
    (h : ∀ {o₁ o₂ t₁ t₂}, P₁ o₁ t₁ → P₂ o₂ t₂ → o₁ = o₂ ∧ Q o₁ t₁ t₂) :
    EndAlike x₁ s₁ x₂ s₂ Q :=
  h₁.mono fun _ _ hp₁ => h₂.mono fun _ _ hp₂ => h hp₁ hp₂

theorem cases (h : EndAlike x₁ s₁ x₂ s₂ Q) :
    (∃ v t₁ t₂, x₁ s₁ = .ok v t₁ ∧ x₂ s₂ = .ok v t₂ ∧ Q (.ok v) t₁ t₂) ∨
    ∃ e t₁ t₂, x₁ s₁ = .error e t₁ ∧ x₂ s₂ = .error e t₂ ∧ Q (.error e) t₁ t₂ := by
  cases hx₁ : x₁ s₁ with
  | ok v t₁ =>
    cases hx₂ : x₂ s₂ with
    | ok w t₂ =>
      obtain ⟨he, hq⟩ := (Ends.ok h hx₁).ok hx₂
      cases he
      exact .inl ⟨v, t₁, t₂, rfl, rfl, hq⟩
    | error e t₂ => exact absurd ((Ends.ok h hx₁).error hx₂).1 (by simp)
  | error e t₁ =>
    cases hx₂ : x₂ s₂ with
    | ok w t₂ => exact absurd ((Ends.error h hx₁).ok hx₂).1 (by simp)
    | error e' t₂ =>
      obtain ⟨he, hq⟩ := (Ends.error h hx₁).error hx₂
      cases he
      exact .inr ⟨e, t₁, t₂, rfl, rfl, hq⟩

/-- What is known of the answer of each holds of the common answer. -/
theorem yields {P₁ : α → S₁ → Prop} {P₂ : α → S₂ → Prop} (h : EndAlike x₁ s₁ x₂ s₂ Q)
    (h₁ : Yields x₁ s₁ P₁) (h₂ : Yields x₂ s₂ P₂) : EndAlike x₁ s₁ x₂ s₂ fun o t₁ t₂ =>
      Q o t₁ t₂ ∧ ∀ v, o = .ok v → P₁ v t₁ ∧ P₂ v t₂ := by
  obtain ⟨v, t₁, t₂, hx₁, hx₂, hq⟩ | ⟨e, t₁, t₂, hx₁, hx₂, hq⟩ := h.cases
  · unfold EndAlike Ends
    simp only [hx₁, hx₂, true_and]
    refine ⟨hq, fun w hw => ?_⟩
    cases hw
    exact ⟨h₁ _ _ hx₁, h₂ _ _ hx₂⟩
  · unfold EndAlike Ends
    simp only [hx₁, hx₂, true_and]
    exact ⟨hq, fun w hw => nomatch hw⟩

theorem pure {v : α} (h : Q (.ok v) s₁ s₂) :
    EndAlike (Pure.pure v : EStateM ε S₁ α) s₁ (Pure.pure v : EStateM ε S₂ α) s₂ Q :=
  Ends.pure (Ends.pure ⟨rfl, h⟩)

theorem throw {e : ε} (h : Q (.error e) s₁ s₂) :
    EndAlike (MonadExcept.throw e : EStateM ε S₁ α) s₁ (MonadExcept.throw e) s₂ Q :=
  Ends.throw (Ends.throw ⟨rfl, h⟩)

theorem guard {c : Prop} [Decidable c] {e : ε} {k₁ : α → EStateM ε S₁ β} {k₂ : α → EStateM ε S₂ β}
    {y₁ : EStateM ε S₁ β} {y₂ : EStateM ε S₂ β} (hfail : c → R (.error e) s₁ s₂)
    (hpass : ¬c → EndAlike y₁ s₁ y₂ s₂ R) :
    EndAlike (if c then MonadExcept.throw e >>= k₁ else y₁) s₁
      (if c then MonadExcept.throw e >>= k₂ else y₂) s₂ R :=
  Ends.guard (fun hc => Ends.guard (fun _ => ⟨rfl, hfail hc⟩) fun h => absurd hc h) fun hc => by
    rw [if_neg hc]; exact hpass hc

theorem ofExcept {y : Except ε α} (h : Q y s₁ s₂) :
    EndAlike (MonadExcept.ofExcept y : EStateM ε S₁ α) s₁ (MonadExcept.ofExcept y) s₂ Q :=
  Ends.ofExcept (Ends.ofExcept ⟨rfl, h⟩)

theorem bind (h : EndAlike x₁ s₁ x₂ s₂ P)
    (hok : ∀ v t₁ t₂, P (.ok v) t₁ t₂ → EndAlike (f₁ v) t₁ (f₂ v) t₂ R)
    (herror : ∀ e t₁ t₂, P (.error e) t₁ t₂ → R (.error e) t₁ t₂) :
    EndAlike (x₁ >>= f₁) s₁ (x₂ >>= f₂) s₂ R := by
  obtain ⟨v, t₁, t₂, hx₁, hx₂, hp⟩ | ⟨e, t₁, t₂, hx₁, hx₂, hp⟩ := h.cases
  · have hb₁ : (x₁ >>= f₁) s₁ = f₁ v t₁ := by simp only [Bind.bind, EStateM.bind, hx₁]
    have hb₂ : (x₂ >>= f₂) s₂ = f₂ v t₂ := by simp only [Bind.bind, EStateM.bind, hx₂]
    unfold EndAlike Ends
    rw [hb₁, hb₂]
    exact hok v t₁ t₂ hp
  · have hb₁ : (x₁ >>= f₁) s₁ = .error e t₁ := by simp only [Bind.bind, EStateM.bind, hx₁]
    have hb₂ : (x₂ >>= f₂) s₂ = .error e t₂ := by simp only [Bind.bind, EStateM.bind, hx₂]
    unfold EndAlike Ends
    rw [hb₁, hb₂]
    exact ⟨rfl, herror e t₁ t₂ hp⟩

theorem onBoard {σ₁ σ₂ : Type} {x : Board.Action α} {r₁ : Rig σ₁} {r₂ : Rig σ₂}
    {Q : Except UpdateError α → Rig σ₁ → Rig σ₂ → Prop}
    (h : EndAlike x r₁.board x r₂.board fun o b₁ b₂ =>
      Q o { r₁ with board := b₁ } { r₂ with board := b₂ }) :
    EndAlike (Rig.onBoard x) r₁ (Rig.onBoard x) r₂ Q :=
  Ends.onBoard (Ends.mono h fun _ _ h₁ => Ends.onBoard h₁)

theorem during {σ₁ σ₂ : Type} {stage : Stage} {x₁ : Rig.Action σ₁ α} {x₂ : Rig.Action σ₂ α}
    {r₁ : Rig σ₁} {r₂ : Rig σ₂} {Q : Except Failure α → Rig σ₁ → Rig σ₂ → Prop}
    (h : EndAlike x₁ r₁ x₂ r₂ fun o t₁ t₂ => Q (o.mapError (Failure.mk stage)) t₁ t₂) :
    EndAlike (Attempt.during stage x₁) r₁ (Attempt.during stage x₂) r₂ Q :=
  Ends.during (Ends.mono h fun _ _ h₁ => Ends.during (h₁.mono fun _ _ ⟨he, hq⟩ => ⟨by rw [he], hq⟩))

end EndAlike
end DualBank
