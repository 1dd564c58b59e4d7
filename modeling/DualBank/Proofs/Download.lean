import DualBank.Launch
import DualBank.Proofs.BareInstall
import DualBank.Proofs.Chunking
import DualBank.Proofs.Response

/-! Updating over HTTP. What follows the head of a response is served to the attempt in portions
that depend on where the head ended, and an attempt does not depend on those. So it comes to what it
would come to on a connection that brings the body alone, and is told apart from that by its reads
only. Without a head that is understood there is no attempt. -/
namespace DualBank

variable {σ τ : Type}

/-- Connections that take what is sent answer a byte alike. -/
theorem Link.Accepts.sending [Link σ] {flushed : Except IoKind Unit} {s : σ}
    (h : Accepts flushed s) (byte : UInt8) : Link.sending [byte] s = (.ok 1, flushed) := by
  have haccepts := obliging_accepts (σ := σ) flushed
  rw [Link.sending, h.write_one, haccepts.flushed (haccepts.write [byte] h)]

namespace Attempt

/-- Devices that hold the same greet alike. -/
theorem greeting_same (a : Attempt) {b b' : Board} (hs : b.Same b') (hf : b.Faultless) :
    a.greeting b = a.greeting b' := by
  unfold greeting
  cases a.config.flow with
  | container => rfl
  | bare =>
    obtain ⟨_, _, _, hx, hx', _⟩ | ⟨_, _, _, hx, hx', _⟩ :=
      (Board.Congruent.settleBank2 a b b' hs hf).cases
    · rw [hx, hx']
    · rw [hx, hx']

section
variable [Link σ] [Link τ] {r₁ : Rig σ} {r₂ : Rig τ} {D : Bytes} {n₁ n₂ : Nat}

/-- Two attempts with one plan that is carried out alike. -/
theorem run_planned_level (a : Attempt) {plan : Plan} {header : Option TargetHeader} {t₁ : Rig σ}
    {t₂ : Rig τ} (hx₁ : a.plan a.config.flow r₁ = .ok (plan, header) t₁)
    (hx₂ : a.plan a.config.flow r₂ = .ok (plan, header) t₂)
    (h : EndLevel (a.install a.config.flow plan) t₁ (a.install a.config.flow plan) t₂
      fun _ _ _ => True) :
    (a.run r₁).1 = (a.run r₂).1 ∧ (a.run r₁).2.Level (a.run r₂).2 := by
  obtain ⟨_, u₁, u₂, hy₁, hy₂, hu, _⟩ | ⟨f, u₁, u₂, hy₁, hy₂, hu, _⟩ := h.cases
  · simp only [run, runFlow, hx₁, hx₂, hy₁, hy₂]
    exact ⟨trivial, hu⟩
  · simp only [run, runFlow, hx₁, hx₂, hy₁, hy₂]
    exact a.abandon_level plan f hu

/-- Two attempts over the same bytes, with as much room for the header block. -/
theorem run_level (a : Attempt) (h : r₁.Abreast D n₁ n₂ r₂)
    (hsend : a.config.flow = .bare → Link.sending [a.running.other.toWord.toUInt8] r₁.link =
      Link.sending [a.running.other.toWord.toUInt8] r₂.link)
    (hroom : a.config.flow = .container → a.SameRoom D n₁ n₂) (hn₁ : 0 < n₁) (hn₂ : 0 < n₂)
    (hs : a.aperture.base.toNat + r₁.board.chip.size ≤ UInt32.size)
    (hapart : ∀ plan header r, a.plan a.config.flow r₁ = .ok (plan, header) r →
      plan.placements.Pairwise Placement.Apart) :
    (a.run r₁).1 = (a.run r₂).1 ∧ (a.run r₁).2.Level (a.run r₂).2 := by
  obtain ⟨⟨plan, header⟩, t₁, t₂, hx₁, hx₂, hl, hready⟩ | ⟨f, t₁, t₂, hx₁, hx₂, hl, _⟩ :=
    (a.plan_level_of h hsend hroom).cases
  · have hw : plan.WellFormed := (a.plan_plans a.config.flow r₁).ok hx₁
    obtain ⟨_, _, hd, _⟩ := (a.plan_settled a.config.flow h.faultless.store.plain).ok hx₁
    exact a.run_planned_level hx₁ hx₂ (a.install_level a.config.flow (hready _ rfl) hn₁ hn₂
      (hd.size ▸ hs) hw (hapart _ _ _ hx₁))
  · simp only [run, runFlow, hx₁, hx₂]
    exact ⟨trivial, hl⟩

end

/-- Two updates to be compared: `r` is at the head of a response, and to `r'` the body `B` is
brought alone. Their devices hold the same, and no call on them is set to fail. -/
structure Alongside [Link σ] [Link τ] (a : Attempt) (B : Bytes) (r : Rig σ) (r' : Rig τ) :
    Prop where
  serves : Link.Serves r'.link B
  same : r'.board.Same r.board
  faultless : r'.board.Faultless
  addressed : a.aperture.base.toNat + r'.board.chip.size ≤ UInt32.size
  buffer : r'.buffer.length = r.buffer.length
  buffer_ne : r'.buffer ≠ []
  accepts : a.config.flow = .bare →
    ∃ flushed, Link.Accepts flushed r.link ∧ Link.Accepts flushed r'.link
  apart : ∀ plan header t, a.plan a.config.flow r' = .ok (plan, header) t →
    plan.placements.Pairwise Placement.Apart

variable [FiniteLink σ]

/-- The rig once the head is read, with the body for a connection. -/
def headed (r : Rig σ) : Rig (Http.Body σ) :=
  let head := Http.Body.head { link := r.link }
  { r with
    link := head.link
    board := { r.board with
      journal := (head.calls.map Event.link).reverse ++ r.board.journal } }

theorem runHttp_error (a : Attempt) {r : Rig σ} {e : UpdateError}
    (h : (Http.Body.head { link := r.link }).result = .error e) :
    a.runHttp r = (.ofPlanning ⟨.parseHeader, e⟩,
      { headed r with link := (headed r).link.link }) := by
  unfold runHttp
  dsimp only
  rw [h]
  rfl

theorem runHttp_ok (a : Attempt) {r : Rig σ} {n : Word}
    (h : (Http.Body.head { link := r.link }).result = .ok n) :
    a.runHttp r = ((a.run (headed r)).1,
      { (a.run (headed r)).2 with link := (a.run (headed r)).2.link.link }) := by
  unfold runHttp
  dsimp only
  rw [h]
  rfl

/-- Nothing is sent to have the head. -/
theorem headed_sent (hn : Link.NotesWrites σ) (r : Rig σ) :
    (headed r).board.sent = r.board.sent :=
  Listens.sent ⟨_, r.board.traffic_heard _, (Http.Body.head_reads (P := fun _ => True)
    (fun _ _ => id) hn.read trivial).2⟩

theorem headed_accepts {flushed : Except IoKind Unit} {r : Rig σ}
    (h : Link.Accepts flushed r.link) : Link.Accepts flushed (headed r).link :=
  Http.Body.accepts (Http.Body.head_reads (C := fun _ => True)
    (fun room _ => (Link.obliging_accepts flushed).read room) (fun _ _ _ _ => trivial) h).1

/-- Behind the head, the two updates are abreast. -/
theorem Alongside.abreast [Link τ] {a : Attempt} {B : Bytes} {r : Rig σ} {r' : Rig τ}
    (h : a.Alongside B r r') (hbody : (headed r).link.Owes B) :
    r'.Abreast B r'.buffer.length r'.buffer.length (headed r) where
  same := ⟨h.same.chip, h.same.store⟩
  faultless := h.faultless
  serves₁ := h.serves
  serves₂ := ⟨_, Http.Body.honest_owes, hbody⟩
  length₁ := rfl
  length₂ := h.buffer.symm

theorem Alongside.run_level [Link τ] {a : Attempt} {B : Bytes} {r : Rig σ} {r' : Rig τ}
    (h : a.Alongside B r r') (hbody : (headed r).link.Owes B) :
    (a.run r').1 = (a.run (headed r)).1 ∧ (a.run r').2.Level (a.run (headed r)).2 := by
  have hroom : 0 < r'.buffer.length := List.length_pos_iff.2 h.buffer_ne
  refine a.run_level (h.abreast hbody) (fun hflow => ?_) (fun _ => rfl) hroom hroom h.addressed
    h.apart
  obtain ⟨flushed, hr, hr'⟩ := h.accepts hflow
  rw [hr'.sending, (headed_accepts hr).sending]

theorem Alongside.run_sent [Link τ] (hσ : Link.NotesWrites σ) (hτ : Link.NotesWrites τ)
    {a : Attempt} {B : Bytes} {r : Rig σ} {r' : Rig τ} (h : a.Alongside B r r') :
    ∃ sent, (a.run (headed r)).2.board.sent = r.board.sent ++ sent ∧
      (a.run r').2.board.sent = r'.board.sent ++ sent := by
  have hhttp := a.run_sent (Http.Body.notes hσ) (r := headed r) fun hflow =>
    let ⟨flushed, hr, _⟩ := h.accepts hflow
    ⟨flushed, headed_accepts hr⟩
  have hplain := a.run_sent hτ (r := r') fun hflow =>
    let ⟨flushed, _, hr'⟩ := h.accepts hflow
    ⟨flushed, hr'⟩
  have hgreeting : a.greeting r'.board = a.greeting (headed r).board :=
    a.greeting_same ⟨h.same.chip, h.same.store⟩ h.faultless
  rw [headed_sent hσ, ← hgreeting] at hhttp
  exact ⟨_, hhttp, hplain⟩

/-- An update over HTTP comes to what a plain update from the body comes to. The body of a response
is what follows its head, cut to the length that the head announces; what comes after it is not
looked at. On devices that hold the same, and over connections that take what is sent, the two end
with a reset into the same bank or with the same report, they leave the same bytes and words, and
they send the same, unless images of the plan share flash. Where there is no head to be read, that
is what is reported, and the device is as it was. Either way the session has ended. -/
theorem executeHttp_eq_execute [Link τ] (hσ : Link.NotesWrites σ) (hτ : Link.NotesWrites τ)
    (a : Attempt) (g : Gate) (r : Rig σ) :
    (a.executeHttp g r).2.1.busy = false ∧
    (∀ e, (Http.Body.head { link := r.link }).result = .error e →
      (a.executeHttp g r).1 = .returned (.ofPlanning ⟨.parseHeader, e⟩) ∧
      (a.executeHttp g r).2.2.board.chip = r.board.chip ∧
      (a.executeHttp g r).2.2.board.store = r.board.store) ∧
    ∀ R n, Link.Serves r.link R → (Http.Body.head { link := r.link }).result = .ok n →
      ∃ head rest, R = head ++ rest ∧ Http.Head.Announces head n ∧
        ∀ (g' : Gate) (r' : Rig τ), a.Alongside (rest.take n.toNat) r r' →
          (a.execute g' r').2.1.busy = false ∧
          (a.executeHttp g r).1 = (a.execute g' r').1 ∧
          (a.executeHttp g r).2.2.board.chip.byte = (a.execute g' r').2.2.board.chip.byte ∧
          (∀ slot, (a.executeHttp g r).2.2.board.store.value? slot =
            (a.execute g' r').2.2.board.store.value? slot) ∧
          ∃ sent, (a.executeHttp g r).2.2.board.sent = r.board.sent ++ sent ∧
            (a.execute g' r').2.2.board.sent = r'.board.sent ++ sent := by
  refine ⟨rfl, fun e hhead => ?_, fun R n hR hhead => ?_⟩
  · rw [executeHttp, a.runHttp_error hhead]
    exact ⟨rfl, rfl, rfl⟩
  · obtain ⟨hresult, hbody⟩ := Http.Body.head_serves hR
    rw [hhead] at hresult
    obtain ⟨rest, hsplit⟩ : ∃ rest, Http.Head.split (some Http.Head.lineMax) {} R =
        .ok (n, rest) := by
      cases hsplit : Http.Head.split (some Http.Head.lineMax) {} R with
      | error e => rw [hsplit] at hresult; cases hresult
      | ok found => rw [hsplit] at hresult; cases hresult; exact ⟨_, rfl⟩
    obtain ⟨head, rfl, hannounces⟩ := Http.Head.split_eq_ok.1 hsplit
    refine ⟨head, rest, rfl, hannounces, fun g' r' h => ⟨rfl, ?_⟩⟩
    obtain ⟨hreport, hlevel⟩ := h.run_level (hbody _ _ hsplit)
    rw [executeHttp, execute, a.runHttp_ok hhead]
    exact ⟨congrArg Ending.ofReport hreport.symm, hlevel.same.chip.byte,
      fun slot => hlevel.same.store.value? slot, h.run_sent hσ hτ⟩

end Attempt

namespace Sample

/-- The head of a response with fifteen bytes: `HTTP/1.1 200 OK`, and `Content-Length: 15` -/
def responseHead : Bytes :=
  [0x48, 0x54, 0x54, 0x50, 0x2F, 0x31, 0x2E, 0x31, 0x20, 0x32, 0x30, 0x30, 0x20, 0x4F, 0x4B,
    0x0D, 0x0A, 0x43, 0x6F, 0x6E, 0x74, 0x65, 0x6E, 0x74, 0x2D, 0x4C, 0x65, 0x6E, 0x67, 0x74,
    0x68, 0x3A, 0x20, 0x31, 0x35, 0x0D, 0x0A, 0x0D, 0x0A]

/-- The device of `bareUpdate`, with a response for a connection. One more byte comes after it. -/
def bareDownload : Rig Scripted :=
  { bareUpdate with
    link := {
      data := responseHead ++ (bareUpdate.link.data ++ [0xFF])
      script := [.serve 7] } }

theorem announces_responseHead : Http.Head.Announces responseHead 15 := by
  have hsplit : Http.Head.split (some Http.Head.lineMax) {} responseHead = .ok (15, []) := by
    decide +kernel
  obtain ⟨head, hhead, hannounces⟩ := Http.Head.split_eq_ok.1 hsplit
  rwa [hhead, List.append_nil]

theorem alongside_bareDownload : (bare 0 0x2000).Alongside bareUpdate.link.data
    bareDownload bareUpdate where
  serves := Scripted.serves (by simp [bareUpdate]) rfl
  same := .refl _
  faultless := ⟨fun _ _ => rfl, rfl, fun _ => rfl, fun _ => rfl⟩
  addressed := by decide
  buffer := rfl
  buffer_ne := by decide
  accepts _ := ⟨.ok (), Scripted.accepts (s := bareDownload.link) rfl (by decide),
    Scripted.accepts (s := bareUpdate.link) rfl (by decide)⟩
  apart := by
    intro plan header t (hx : (bare 0 0x2000).plan .bare bareUpdate = _)
    have hone : (answer? ((bare 0 0x2000).plan .bare) bareUpdate).map (·.1.placements.length) =
        some 1 := by decide +kernel
    rw [answer?_eq_some.2 ⟨t, hx⟩, Option.map_some, Option.some_inj] at hone
    obtain ⟨p, hp⟩ := List.length_eq_one_iff.1 hone
    rw [hp]
    exact List.pairwise_singleton _ _

end Sample

/-- Both updates switch to the first bank, and both servers are told so. -/
theorem Attempt.executeHttp_eq_execute_sample :
    (Http.Body.head { link := Sample.bareDownload.link }).result = .ok 15 ∧
    ((Sample.bare 0 0x2000).execute {} Sample.bareUpdate).1 = .reset .bank1 ∧
    ((Sample.bare 0 0x2000).executeHttp {} Sample.bareDownload).1 = .reset .bank1 ∧
    ((Sample.bare 0 0x2000).executeHttp {} Sample.bareDownload).2.2.board.sent = [0] := by
  have hR : Link.Serves Sample.bareDownload.link Sample.bareDownload.link.data :=
    Scripted.serves (by simp [Sample.bareDownload]) rfl
  have hhead : (Http.Body.head { link := Sample.bareDownload.link }).result = .ok 15 :=
    (Http.Body.head_serves hR).1.trans
      (congrArg (Except.map Prod.fst) (Sample.announces_responseHead.split _))
  have hreset : ((Sample.bare 0 0x2000).execute {} Sample.bareUpdate).1 = .reset .bank1 := by
    decide +kernel
  have hsent : ((Sample.bare 0 0x2000).execute {} Sample.bareUpdate).2.2.board.sent = [0] := by
    decide +kernel
  obtain ⟨_, _, hbody⟩ := Attempt.executeHttp_eq_execute Scripted.notes.writes
    Scripted.notes.writes (Sample.bare 0 0x2000) {} Sample.bareDownload
  obtain ⟨head, rest, hsplit, hannounces, heq⟩ := hbody _ _ hR hhead
  have hrest := Sample.announces_responseHead.rest_eq hannounces hsplit
  have halong : (Sample.bare 0 0x2000).Alongside (rest.take (15 : Word).toNat) Sample.bareDownload
      Sample.bareUpdate := hrest ▸ Sample.alongside_bareDownload
  obtain ⟨_, hending, _, _, sent, hhttp, hplain⟩ := heq {} Sample.bareUpdate halong
  refine ⟨hhead, hreset, hending.trans hreset, ?_⟩
  have hone : sent = [0] := hplain.symm.trans hsent
  rw [hhttp, hone]
  rfl

end DualBank
