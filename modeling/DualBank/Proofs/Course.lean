import DualBank.Proofs.Changes
import DualBank.Proofs.Layout

/-! The course of an attempt: the writes and erasures that it makes, in the order in which it makes
them, up to whichever call it ends with. The order is a grammar of calls. Each function of the
attempt is shown to make the calls of its part of the grammar, whatever the connection brings and
whichever calls fail. -/
namespace DualBank

variable {σ : Type}

/-- What planning writes: at most the address of bank 2. The flag tells that nothing failed. -/
inductive Settles (c : Config) : List Event → Bool → Prop
  | kept : Settles c [] true
  | written {failed : Bool} :
      Settles c [.slotWrite .bank2Address c.defaultBank2Address failed] (!failed)

/-- The erasure of the regions of a plan, one after the other. The flag tells that all were done. -/
inductive Erasures (a : Aperture) : List Placement → List Event → Bool → Prop
  | all : Erasures a [] [] true
  | next {p : Placement} {ps : List Placement} {start len : Word} {lo hi : Nat}
      {calls : List Event} {done : Bool} (hs : p.regionStart? = some start)
      (hl : p.regionLen? = some len) (hr : a.sectors start len = .ok (lo, hi))
      (h : Erasures a ps calls done) :
      Erasures a (p :: ps) (.flash (.erase lo hi) none :: calls) done
  | failed {p : Placement} {ps : List Placement} {start len : Word} {lo hi : Nat} {e : FlashError}
      (hs : p.regionStart? = some start) (hl : p.regionLen? = some len)
      (hr : a.sectors start len = .ok (lo, hi)) :
      Erasures a (p :: ps) [.flash (.erase lo hi) (some e)] false
  | refused {p : Placement} {ps : List Placement} : Erasures a (p :: ps) [] false

/-- Writes of payload bytes from position `done` of the payload on, each where the last one ended.
The flag tells that they reached the end. -/
inductive Deposits (a : Aperture) (p : Placement) : Nat → List Event → Bool → Prop
  | whole : Deposits a p p.payloadLen.toNat [] true
  | broken {done : Nat} : Deposits a p done [] false
  | failed {done offset : Nat} {bytes : Bytes} {e : FlashError} (hb : bytes ≠ [])
      (ha : a.base.toNat + offset = p.destination.toNat + done)
      (hl : done + bytes.length ≤ p.payloadLen.toNat) :
      Deposits a p done [.flash (.write offset bytes) (some e)] false
  | next {done offset : Nat} {bytes : Bytes} {calls : List Event} {whole : Bool} (hb : bytes ≠ [])
      (ha : a.base.toNat + offset = p.destination.toNat + done)
      (hl : done + bytes.length ≤ p.payloadLen.toNat)
      (h : Deposits a p (done + bytes.length) calls whole) :
      Deposits a p done (.flash (.write offset bytes) none :: calls) whole

/-- The payloads of a plan, one image after the other. -/
inductive Payloads (a : Aperture) : List Placement → List Event → Bool → Prop
  | all : Payloads a [] [] true
  | image {p : Placement} {ps : List Placement} {calls rest : List Event} {whole : Bool}
      (hp : Deposits a p 0 calls true) (h : Payloads a ps rest whole) :
      Payloads a (p :: ps) (calls ++ rest) whole
  | broken {p : Placement} {ps : List Placement} {calls : List Event}
      (hp : Deposits a p 0 calls false) : Payloads a (p :: ps) calls false

/-- The signature, for a container, and then the active bank. The flag tells that all was done. -/
inductive Commits (a : Aperture) (plan : Plan) : Flow → List Event → Bool → Prop
  | refused {flow : Flow} : Commits a plan flow [] false
  | unsigned {address : Word} {offset : Nat} {s : Signature} {e : FlashError}
      (hb : plan.bankAddress? = some address) (ho : a.offset address = .ok offset) :
      Commits a plan .container [.flash (.write offset s.bytes) (some e)] false
  | signed {address : Word} {offset : Nat} {s : Signature} {failed : Bool}
      (hb : plan.bankAddress? = some address) (ho : a.offset address = .ok offset) :
      Commits a plan .container [.flash (.write offset s.bytes) none,
        .slotWrite .activeBank plan.targetBank.toWord failed] (!failed)
  | bare {failed : Bool} :
      Commits a plan .bare [.slotWrite .activeBank plan.targetBank.toWord failed] (!failed)

/-- At most the first sector of the target is erased. The flag tells that it was done. -/
inductive Undoes (a : Aperture) (plan : Plan) : List Event → Bool → Prop
  | refused : Undoes a plan [] false
  | erased {address : Word} {offset : Nat} {fault : Option FlashError}
      (hb : plan.bankAddress? = some address) (ho : a.offset address = .ok offset) :
      Undoes a plan [.flash (.erase offset (offset + sectorSize)) fault] fault.isNone

namespace Attempt

/-- After exactly these calls the check of the whole plan was passed. -/
def Verified (a : Attempt) (plan : Plan) (r : Rig σ) [Link σ] (calls : List Event) : Prop :=
  ∃ r₁ s r₂ r₃, Rig.onBoard (Board.eraseTargets a.aperture plan.placements) r = .ok () r₁ ∧
    Rig.transfer a.aperture plan r₁ = .ok s r₂ ∧
    Rig.verify a.aperture s plan.placements r₂ = .ok () r₃ ∧
    r₂.board.mutations = r.board.mutations ++ calls

/-- The calls of an installation, by the stage at which it ends. -/
inductive Installs [Link σ] (a : Attempt) (flow : Flow) (plan : Plan) (r : Rig σ) :
    List Event → Except Failure Unit → Prop
  | unerased {es : List Event} {error : UpdateError}
      (he : Erasures a.aperture plan.placements es false) :
      Installs a flow plan r es (.error ⟨.eraseTarget, error⟩)
  | broken {es ws : List Event} {whole : Bool} {error : UpdateError}
      (he : Erasures a.aperture plan.placements es true)
      (hw : Payloads a.aperture plan.placements ws whole) :
      Installs a flow plan r (es ++ ws) (.error ⟨.streamWrite, error⟩)
  | unverified {es ws : List Event} {error : UpdateError}
      (he : Erasures a.aperture plan.placements es true)
      (hw : Payloads a.aperture plan.placements ws true) :
      Installs a flow plan r (es ++ ws) (.error ⟨.verify, error⟩)
  | uncommitted {es ws cs : List Event} {error : UpdateError}
      (he : Erasures a.aperture plan.placements es true)
      (hw : Payloads a.aperture plan.placements ws true) (hv : a.Verified plan r (es ++ ws))
      (hc : Commits a.aperture plan flow cs false) :
      Installs a flow plan r (es ++ ws ++ cs) (.error ⟨.commitSuccess, error⟩)
  | committed {es ws cs : List Event} (he : Erasures a.aperture plan.placements es true)
      (hw : Payloads a.aperture plan.placements ws true) (hv : a.Verified plan r (es ++ ws))
      (hc : Commits a.aperture plan flow cs true) :
      Installs a flow plan r (es ++ ws ++ cs) (.ok ())

/-- The calls of an attempt, and the report that goes with them. -/
inductive Course [Link σ] (a : Attempt) (flow : Flow) (r : Rig σ) : List Event → Report → Prop
  | unplanned {f : Failure} {r₁ : Rig σ} {ss : List Event} {settled : Bool}
      (hp : a.plan flow r = .error f r₁) (hs : Settles a.config ss settled) :
      Course a flow r ss (.ofPlanning f)
  | installed {plan : Plan} {header : Option TargetHeader} {r₁ : Rig σ} {ss ms : List Event}
      (hp : a.plan flow r = .ok (plan, header) r₁) (hs : Settles a.config ss true)
      (hi : a.Installs flow plan r₁ ms (.ok ())) :
      Course a flow r (ss ++ ms) ⟨.commitSuccess, .reboot plan.targetBank⟩
  | abandoned {plan : Plan} {header : Option TargetHeader} {r₁ : Rig σ} {ss ms us : List Event}
      {f : Failure} {rolledBack : Bool} (hp : a.plan flow r = .ok (plan, header) r₁)
      (hs : Settles a.config ss true) (hi : a.Installs flow plan r₁ ms (.error f))
      (hu : Undoes a.aperture plan us rolledBack) :
      Course a flow r (ss ++ ms ++ us) ⟨.rollbackFailure, .failed f rolledBack⟩

end Attempt

/-! ## Planning -/

/-- Planning has come this far with no other call than one of `Settles`. A container leaves an
address of bank 2 alone that is there. -/
def Config.Settled (c : Config) (flow : Flow) (b : Board) (isOk : Bool) (b' : Board) : Prop :=
  ∃ ss settled, Does ss b b' ∧ Settles c ss settled ∧ (isOk = true → settled = true) ∧
    (flow = .container → ss ≠ [] → b.store.value? .bank2Address = some erasedWord)

namespace Config.Settled

variable {c : Config} {flow : Flow} {b b' b'' : Board} {isOk : Bool}

theorem silent (h : Does [] b b') : c.Settled flow b isOk b' :=
  ⟨[], true, h, .kept, fun _ => rfl, fun _ hn => absurd rfl hn⟩

theorem before (hp : b.store.Plain) (h : Does [] b b') (hs : c.Settled flow b' isOk b'') :
    c.Settled flow b isOk b'' := by
  obtain ⟨ss, settled, hd, hc, hk, he⟩ := hs
  refine ⟨ss, settled, h.trans hd, hc, hk, fun hf hn => ?_⟩
  rw [← he hf hn]
  exact (h.value? hp fun e he => nomatch he).symm

theorem after (hs : c.Settled flow b true b') (h : Does [] b' b'') : c.Settled flow b isOk b'' := by
  obtain ⟨ss, settled, hd, hc, hk, he⟩ := hs
  exact ⟨ss, settled, List.append_nil ss ▸ hd.trans h, hc, fun _ => hk rfl, he⟩

theorem plain (hs : c.Settled flow b isOk b') (hp : b.store.Plain) : b'.store.Plain := by
  obtain ⟨_, _, hd, _⟩ := hs
  exact hd.plain hp

section
variable {ε S α β : Type} (board : S → Board) {x : EStateM ε S α} {f : α → EStateM ε S β} {s : S}

/-- What follows planning's one write, or its absence, changes nothing. -/
theorem bind (hx : Ends x s fun o t => c.Settled flow (board s) o.isOk (board t))
    (hf : ∀ v, Keeps (fun s t => Silent (board s) (board t)) (f v)) :
    Ends (x >>= f) s fun o t => c.Settled flow (board s) o.isOk (board t) :=
  Ends.bind hx (fun v t h => (hf v t).mono fun _ _ hd => h.after hd) fun _ _ h => h

/-- What comes before it changes nothing either. -/
theorem quiet_bind (hp : (board s).store.Plain)
    (hx : Keeps (fun s t => Silent (board s) (board t)) x)
    (hf : ∀ v {t : S}, (board t).store.Plain →
      Ends (f v) t fun o u => c.Settled flow (board t) o.isOk (board u)) :
    Ends (x >>= f) s fun o t => c.Settled flow (board s) o.isOk (board t) :=
  Ends.bind (hx s) (fun v _ h => (hf v (h.plain hp)).mono fun _ _ => .before hp h)
    fun _ _ h => .silent h

theorem quiet_optional {p : Prop} [Decidable p] {y : EStateM ε S β} (hp : (board s).store.Plain)
    (hx : Keeps (fun s t => Silent (board s) (board t)) x)
    (hy : ∀ {t : S}, (board t).store.Plain →
      Ends y t fun o u => c.Settled flow (board t) o.isOk (board u)) :
    Ends (if p then x >>= fun _ => y else y) s
      fun o t => c.Settled flow (board s) o.isOk (board t) := by
  split
  · exact quiet_bind board hp hx fun _ _ => hy
  · exact hy hp

end

end Config.Settled

theorem Config.bank2Address_settled (c : Config) {b : Board} (hp : b.store.Plain) :
    Ends c.bank2Address b fun o b' => c.Settled .container b o.isOk b' := by
  have hr := (Board.readSlot_ends hp .bank2Address).and (Board.Quiet.readSlot _ b)
  refine hr.bind (fun stored t hread => ?_) fun _ _ h => .silent h.2
  obtain ⟨⟨_, hs, _, hv⟩, hd⟩ := hread
  have ht := hd.plain hp
  refine Ends.mono ?_ fun _ _ h => Config.Settled.before hp hd h
  by_cases he : stored = erasedWord
  · rw [if_pos he]
    refine Config.Settled.bind id ((Board.writeSlot_does ht _ _).mono fun o u hw => ?_)
      fun _ => (Board.Quiet.readSlot _).bind fun _ => (Board.Quiet.ofExcept _).bind fun _ => .pure _
    refine ⟨_, _, hw, .written, fun ho => by simpa using ho, fun _ _ => ?_⟩
    exact (hs.value? _).trans (hv.trans (by rw [he]))
  · rw [if_neg he]
    refine Ends.mono (Board.Quiet.bind (.pure _) (fun _ => ?_) t)
      fun _ _ h => .silent h
    exact (Board.Quiet.ofExcept _).bind fun _ => .pure _

theorem Config.targetAddress_settled (c : Config) (a : Aperture) (target : Bank) (len : Word)
    {b : Board} (hp : b.store.Plain) :
    Ends (c.targetAddress a target len) b fun o b' => c.Settled .container b o.isOk b' := by
  refine Config.Settled.bind id (c.bank2Address_settled hp) fun bank2 => ?_
  cases target with
  | bank1 =>
    exact (Board.Quiet.ofExcept _).bind fun _ => Keeps.guard Does.refl (Board.Quiet.pure _)
  | bank2 =>
    exact (Board.Quiet.checkClear _ _ _).bind fun _ => Keeps.guard Does.refl (Board.Quiet.pure _)

theorem Config.resolve_settled (c : Config) (a : Aperture) (running : Bank) (h : ImageHeader)
    {b : Board} (hp : b.store.Plain) :
    Ends (c.resolve a running h) b fun o b' => c.Settled .container b o.isOk b' :=
  Config.Settled.bind id (c.targetAddress_settled a _ _ hp)
    fun _ => Keeps.guard Does.refl (Board.Quiet.pure _)

namespace Attempt

theorem settled_during {flow : Flow} {c : Config} {α : Type} {stage : Stage} {x : Rig.Action σ α}
    {r : Rig σ} (h : Ends x r fun o t => c.Settled flow r.board o.isOk t.board) :
    Ends (during stage x) r fun o t => c.Settled flow r.board o.isOk t.board :=
  Ends.during (h.mono fun o _ ho => by cases o <;> exact ho)

variable [Link σ]

theorem planContainer_settled (a : Attempt) {r : Rig σ} (hp : r.board.store.Plain) :
    Ends a.planContainer r fun o t => a.config.Settled .container r.board o.isOk t.board := by
  unfold planContainer
  refine Config.Settled.quiet_optional Rig.board hp (Rig.Quiet.receiveInfo.during _) fun hp => ?_
  refine Config.Settled.quiet_bind Rig.board hp (Rig.Quiet.receiveHeader.during _) fun _ _ hp => ?_
  refine Config.Settled.quiet_bind Rig.board hp ((Rig.Quiet.ofExcept _).during _) fun _ _ hp => ?_
  refine Config.Settled.bind Rig.board ?_ fun _ =>
    ((Rig.Quiet.ofExcept _).during _).bind fun _ => Rig.Quiet.pure _
  exact settled_during (Ends.onBoard (a.config.resolve_settled _ _ _ hp))

theorem settleBank2_settled (a : Attempt) {b : Board} (hp : b.store.Plain) :
    Ends a.settleBank2 b fun o b' => a.config.Settled .bare b o.isOk b' := by
  unfold settleBank2
  refine Config.Settled.quiet_bind id hp (Board.Quiet.ofExcept _) fun _ _ hp => ?_
  refine Config.Settled.quiet_bind id hp (Board.Quiet.checkClear _ _ _) fun _ t hp => ?_
  exact (Board.writeSlot_does hp _ _).mono fun o u hw =>
    ⟨_, _, hw, .written, fun ho => by simpa using ho, fun hf => nomatch hf⟩

theorem planBare_settled (a : Attempt) {r : Rig σ} (hp : r.board.store.Plain) :
    Ends a.planBare r fun o t => a.config.Settled .bare r.board o.isOk t.board := by
  unfold planBare
  refine Config.Settled.bind Rig.board
    (settled_during (Ends.onBoard (a.settleBank2_settled hp))) fun _ => ?_
  refine ((Rig.Quiet.shakeHands _).during _).bind fun _ => ?_
  refine (Rig.Quiet.receiveInfo.during _).bind fun info => Rig.Quiet.guard ?_
  cases a.running.other with
  | bank1 =>
    exact ((Rig.Quiet.ofExcept _).during _).bind fun _ => (Rig.Quiet.pure _).bind fun _ =>
      (Rig.Quiet.ofExcept _).during _
  | bank2 => exact (Rig.Quiet.pure _).bind fun _ => (Rig.Quiet.ofExcept _).during _

theorem plan_settled (a : Attempt) (flow : Flow) {r : Rig σ} (hp : r.board.store.Plain) :
    Ends (a.plan flow) r fun o t => a.config.Settled flow r.board o.isOk t.board := by
  cases flow with
  | container =>
    exact Config.Settled.bind Rig.board (a.planContainer_settled hp) fun _ => Rig.Quiet.pure _
  | bare => exact Config.Settled.bind Rig.board (a.planBare_settled hp) fun _ => Rig.Quiet.pure _

end Attempt

/-! ## Installing -/

theorem Board.eraseTargets_erasures (a : Aperture) (ps : List Placement) (b : Board) :
    Ends (eraseTargets a ps) b fun o b' => ∃ es, Does es b b' ∧ Erasures a ps es o.isOk := by
  induction ps generalizing b with
  | nil => exact ⟨[], .refl b, .all⟩
  | cons p rest ih =>
    unfold eraseTargets
    split
    · rename_i start hs
      split
      · rename_i len hl
        refine (a.erase_does start len b).bind (fun v t h => ?_) fun e t h => ?_
        · obtain ⟨ho, _⟩ | ⟨lo, hi, fault, hr, hf, hd⟩ := h
          · cases ho
          · cases fault with
            | some e => cases hf
            | none =>
              refine (ih t).mono fun o u hrest => ?_
              obtain ⟨es, hes, he⟩ := hrest
              exact ⟨_, hd.trans hes, .next hs hl hr he⟩
        · obtain ⟨_, hd⟩ | ⟨lo, hi, fault, hr, hf, hd⟩ := h
          · exact ⟨[], hd, .refused⟩
          · cases fault with
            | none => cases hf
            | some e => exact ⟨_, hd, .failed hs hl hr⟩
      · exact Ends.throw ⟨[], .refl b, .refused⟩
    · exact Ends.throw ⟨[], .refl b, .refused⟩

namespace Rig

/-- A payload piece goes to flash in one write, next to what is there of the payload. -/
theorem deposit_does (a : Aperture) (p : Placement) (c : Cut) (chunk : Bytes) (r : Rig σ) :
    Ends (deposit a p c chunk) r fun o r' =>
      Does [] r.board r'.board ∧ (o.isOk = true → c.start = c.stop) ∨
      ∃ offset bytes fault, bytes ≠ [] ∧ bytes.length = c.stop - c.start ∧
        a.base.toNat + offset = p.destination.toNat + c.flashOffset ∧ fault.isNone = o.isOk ∧
        Does [.flash (.write offset bytes) fault] r.board r'.board := by
  unfold deposit
  by_cases hc : c.start = c.stop
  · rw [if_pos hc]
    exact Ends.pure (.inl ⟨.refl _, fun _ => hc⟩)
  · rw [if_neg hc]
    split
    · rename_i bytes hb
      have hl := Bytes.length_of_slice? hb
      have hle := (Bytes.slice?_eq_some.1 hb).1
      split
      · rename_i address ha
        refine Ends.onBoard ((a.write_does address bytes r.board).mono fun o b h => ?_)
        obtain ⟨ho, hd⟩ | ⟨offset, fault, hf, hk, hd⟩ := h
        · exact .inl ⟨hd, fun h => by rw [ho] at h; cases h⟩
        · refine .inr ⟨offset, bytes, fault, fun hn => ?_, hl, ?_, hk, hd⟩
          · rw [hn, List.length_nil] at hl; omega
          · rw [Aperture.offset_eq_ok.1 hf, Word.ofNat?_eq_some.1 ha]
      · exact Ends.throw (.inl ⟨.refl _, fun h => by cases h⟩)
    · exact Ends.throw (.inl ⟨.refl _, fun h => by cases h⟩)

variable [Link σ]

/-- What a step writes goes before what the rest of the image writes. -/
theorem step_deposits (a : Aperture) (p : Placement) (u : Uptake)
    (hu : u.progress.isComplete = false) (hl : u.progress.payloadLen = p.payloadLen.toNat)
    (r : Rig σ) :
    Ends (step a p u hu) r fun o r' => ∃ ws, Does ws r.board r'.board ∧
      match o with
      | .ok v => v.val.progress.payloadLen = p.payloadLen.toNat ∧ ∀ calls whole,
          Deposits a p v.val.progress.written calls whole →
          Deposits a p u.progress.written (ws ++ calls) whole
      | .error _ => Deposits a p u.progress.written ws false := by
  unfold step
  refine (Quiet.refill _ r).bind (fun w r₁ h₁ => ?_) fun e t h => ⟨[], h, .broken⟩
  refine Ends.get_bind ?_
  split
  · rename_i chunk _
    have hw := u.progress.written_le
    let c := u.progress.cut u.position chunk.val.length
    have hc : c.flashOffset = u.progress.written := rfl
    have hlen : c.stop - c.start ≤ u.progress.payloadLen - u.progress.written := by
      simp only [c, Progress.cut]; omega
    refine (deposit_does a p c chunk.val r₁).bind (fun _ t h => ?_) fun e t h => ?_
    · obtain ⟨hd, hs⟩ | ⟨offset, bytes, fault, hb, hbl, ha, hk, hd⟩ := h
      · have hz : u.progress.written + (c.stop - c.start) = u.progress.written := by
          rw [hs rfl, Nat.sub_self, Nat.add_zero]
        refine Ends.pure ⟨[], h₁.trans hd, hl, fun calls whole hcalls => ?_⟩
        rw [← hz]
        exact hcalls
      · cases fault with
        | some e => cases hk
        | none =>
          refine Ends.pure ⟨_, h₁.trans hd, hl, fun calls whole hcalls => ?_⟩
          refine Deposits.next hb (hc ▸ ha) (by omega) ?_
          rw [hbl]
          exact hcalls
    · obtain ⟨hd, _⟩ | ⟨offset, bytes, fault, hb, hbl, ha, hk, hd⟩ := h
      · exact ⟨[], h₁.trans hd, .broken⟩
      · cases fault with
        | none => cases hk
        | some e => exact ⟨_, h₁.trans hd, .failed hb (hc ▸ ha) (by omega)⟩
  · exact Ends.throw ⟨[], h₁, .broken⟩

theorem takeImage_deposits (a : Aperture) (p : Placement) (u : Uptake)
    (hl : u.progress.payloadLen = p.payloadLen.toNat) (r : Rig σ) :
    Ends (takeImage a p u) r fun o r' => ∃ ws, Does ws r.board r'.board ∧
      Deposits a p u.progress.written ws o.isOk := by
  induction h : u.need using Nat.strongRecOn generalizing u r with
  | ind n ih =>
    unfold takeImage
    split
    · rename_i hu
      have hw : u.progress.written = u.progress.payloadLen := by
        simp only [Progress.isComplete, Bool.and_eq_true, beq_iff_eq] at hu
        exact hu.2
      refine Ends.pure ⟨[], .refl _, ?_⟩
      rw [hw, hl]
      exact .whole
    · rename_i hu
      refine (step_deposits a p u _ hl r).bind (fun v t hstep => ?_) fun e t hstep => hstep
      obtain ⟨ws, hd, hv, hc⟩ := hstep
      refine (ih _ (h ▸ v.property) v.val hv t rfl).mono fun o r' hr => ?_
      obtain ⟨vs, hvs, hrest⟩ := hr
      exact ⟨ws ++ vs, hd.trans hvs, hc _ _ hrest⟩

theorem takeImages_payloads (a : Aperture) (position : Nat) (window : Window) (s : Summary)
    (ps : List Placement) (r : Rig σ) :
    Ends (takeImages a position window s ps) r fun o r' => ∃ ws, Does ws r.board r'.board ∧
      Payloads a ps ws o.isOk := by
  induction ps generalizing position window s r with
  | nil => exact Ends.pure ⟨[], .refl _, .all⟩
  | cons p rest ih =>
    unfold takeImages
    refine (takeImage_deposits a p ⟨position, window, .start p⟩ rfl r).bind (fun u t hdone => ?_)
      fun e t hfailed => ?_
    · obtain ⟨ws, hd, hc⟩ := hdone
      refine (ih _ _ _ t).mono fun o r' hnext => ?_
      obtain ⟨vs, hvs, hrest⟩ := hnext
      exact ⟨ws ++ vs, hd.trans hvs, .image hc hrest⟩
    · obtain ⟨ws, hd, hc⟩ := hfailed
      exact ⟨ws, hd, .broken hc⟩

theorem transfer_payloads (a : Aperture) (plan : Plan) (r : Rig σ) :
    Ends (transfer a plan) r fun o r' => ∃ ws whole, Does ws r.board r'.board ∧
      Payloads a plan.placements ws whole ∧ (o.isOk = true → whole = true) := by
  unfold transfer
  refine Ends.get_bind (Ends.guard (fun _ => ?_) fun _ => ?_)
  · cases plan.placements with
    | nil => exact ⟨[], true, .refl _, .all, fun _ => rfl⟩
    | cons p ps => exact ⟨[], false, .refl _, .broken .broken, fun h => nomatch h⟩
  · refine (takeImages_payloads a _ _ _ _ r).mono fun o r' hdone => ?_
    obtain ⟨ws, hd, hc⟩ := hdone
    exact ⟨ws, _, hd, hc, id⟩

end Rig
end DualBank
