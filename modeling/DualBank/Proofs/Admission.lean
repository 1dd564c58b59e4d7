import DualBank.Proofs.Answering
import DualBank.Proofs.Purpose

/-! One update at a time. Requests come to a desk in any order, plain or framed, while sessions that
it handed out go on and end. A desk responds to a request in one of four ways, so that it is busy
exactly as long as one session lives, and there is never a second one. -/
namespace DualBank

open Wire (Codec)

/-- A server that can be asked: it has a port, and on the web a name and a resource too. -/
def Source.Valid : Source → Prop
  | direct _ _ _ _ port => port ≠ 0
  | http host port resource => port ≠ 0 ∧ host.value ≠ "" ∧ resource.value ≠ ""

theorem Source.isValid_iff {s : Source} : s.isValid = true ↔ s.Valid := by
  cases s with
  | direct => exact bne_iff_ne
  | http => simp [isValid, Valid, Text.isEmpty, and_assoc]

/-- One word is written, and nothing else is done: if the words are in memory of their own, this is
the only call that changes anything. -/
structure Board.Stores (slot : Slot) (value : Word) (b b' : Board) : Prop where
  ends : Ends (writeSlot slot value) b fun _ b'' => b' = b''
  memory : ∀ m, b.store = .memory m → ∃ failed, Does [.slotWrite slot value failed] b b'

theorem Board.stores_of_ends {slot : Slot} {value : Word} {b b' : Board}
    (h : Ends (writeSlot slot value) b fun _ b'' => b' = b'') : b.Stores slot value b' := by
  refine ⟨h, fun m hm => ?_⟩
  have hdoes := writeMemory_does m slot value hm
  have hwrite : writeSlot slot value b =
      onMemory m (.slotWrite slot value) (SlotMemory.write slot value) b := by
    obtain ⟨chip, store, journal⟩ := b
    cases hm
    rfl
  unfold Ends at h hdoes
  rw [hwrite] at h
  split at h <;> rename_i hx <;> rw [hx] at hdoes <;> exact h ▸ hdoes

/-! ## One request -/

/-- A command that comes plain, or in a frame whose answer has room for so many bytes. -/
inductive Request where
  | plain (c : Command)
  | framed (frame : Bytes) (room : Nat)

namespace Request

/-- The command, if there is one in it. -/
def command? : Request → Option Command
  | plain c => some c
  | framed frame _ => Codec.command.unframe? frame

/-- The reply can be brought back. -/
def HasRoom (r : Reply) : Request → Prop
  | plain _ => True
  | framed _ room => (Codec.reply.frame r).length ≤ room

/-- It holds no command, or asks for an update that has no server to come from. -/
def Improper (q : Request) : Prop :=
  q.command? = none ∨ ∃ s, q.command? = some (.start s) ∧ ¬s.Valid

theorem not_improper_of_select {q : Request} {bank : Bank}
    (hq : q.command? = some (.selectBank bank)) : ¬q.Improper := by
  rintro (h | ⟨t, ht, _⟩)
  · cases hq.symm.trans h
  · cases hq.symm.trans ht

end Request

namespace Desk

/-- What the one who asks is told, what is handed out, and the desk after it. Nothing is told if the
call fails. -/
def ask (d : Desk) : Request → Option Reply × Option Source × Desk
  | .plain c =>
    let (reply, source, d) := d.dispatch c
    (some reply, source, d)
  | .framed frame room =>
    match d.handle frame room with
    | (.ok (answer, source), d) => (Codec.reply.unframe? answer, source, d)
    | (.error _, d) => (none, none, d)

/-- What becomes of the device. A bank that the idle desk is to select is stored, by one write, and
anything else leaves the device alone. -/
structure Obeys (d : Desk) (command? : Option Command) (board : Board) : Prop where
  stored : ∀ bank, command? = some (.selectBank bank) → d.gate.busy = false →
    d.board.Stores .activeBank bank.toWord board
  kept : (∀ bank, command? = some (.selectBank bank) → d.gate.busy = true) → board = d.board

/-- The four ways to respond. -/
inductive Responds (d : Desk) (q : Request) : Reply × Option Source × Desk → Prop
  | refused (h : q.Improper) : Responds d q (.rejected .invalidRequest, none, d)
  | engaged (h : ¬q.Improper) (hbusy : d.gate.busy = true) :
      Responds d q (.rejected .alreadyRunning, none, d)
  | admitted {s : Source} (hq : q.command? = some (.start s)) (hs : s.Valid)
      (hidle : d.gate.busy = false) :
      Responds d q (.accepted, some s, { d with gate := { busy := true } })
  | stored {bank : Bank} {reply : Reply} {board : Board} (hq : q.command? = some (.selectBank bank))
      (hidle : d.gate.busy = false) (hr : reply ≠ .accepted)
      (hw : d.board.Stores .activeBank bank.toWord board) :
      Responds d q (reply, none, { gate := { busy := false }, board })

theorem respond_responds (d : Desk) (q : Request) : d.Responds q (d.respond q.command?) := by
  cases hq : q.command? with
  | none => exact .refused (.inl hq)
  | some c =>
    cases c with
    | start s =>
      by_cases hs : s.Valid
      · have hproper : ¬q.Improper := by
          rintro (h | ⟨t, ht, hinvalid⟩)
          · cases hq.symm.trans h
          · cases hq.symm.trans ht
            exact hinvalid hs
        have hvalid : ¬s.isValid = false := by rw [Source.isValid_iff.2 hs]; decide
        simp only [respond, dispatch, if_neg hvalid, Gate.enter?]
        cases hbusy : d.gate.busy with
        | true => exact .engaged hproper hbusy
        | false => exact .admitted hq hs hbusy
      · have hinvalid : s.isValid = false :=
          Bool.eq_false_iff.2 fun h => hs (Source.isValid_iff.1 h)
        simp only [respond, dispatch, if_pos hinvalid]
        exact .refused (.inr ⟨s, hq, hs⟩)
    | selectBank bank =>
      simp only [respond, dispatch, selectBank, Gate.enter?]
      cases hbusy : d.gate.busy with
      | true => exact .engaged (Request.not_improper_of_select hq) hbusy
      | false =>
        cases hx : Board.selectBank bank d.board with
        | ok v b =>
          exact .stored hq hbusy (by simp) (Board.stores_of_ends (Ends.of_ok hx rfl))
        | error e b =>
          exact .stored hq hbusy (by simp) (Board.stores_of_ends (Ends.of_error hx rfl))

namespace Responds

variable {d : Desk} {q : Request} {r : Reply × Option Source × Desk}

theorem source_eq_some (h : d.Responds q r) (s : Source) :
    r.2.1 = some s ↔ q.command? = some (.start s) ∧ s.Valid ∧ d.gate.busy = false := by
  cases h with
  | refused h =>
    refine iff_of_false (by simp) fun ⟨hq, hs, _⟩ => ?_
    rcases h with h | ⟨t, ht, hinvalid⟩
    · cases h.symm.trans hq
    · cases ht.symm.trans hq
      exact hinvalid hs
  | engaged _ hbusy => simp [hbusy]
  | admitted hq hs hidle =>
    constructor
    · rintro ⟨⟩
      exact ⟨hq, hs, hidle⟩
    · rintro ⟨hq', _⟩
      cases hq.symm.trans hq'
      rfl
  | stored hq => simp [hq]

theorem reply_eq_accepted (h : d.Responds q r) : r.1 = .accepted ↔ r.2.1.isSome = true := by
  cases h with
  | refused | engaged | admitted => simp
  | stored _ _ hr => simp [hr]

theorem busy_iff (h : d.Responds q r) :
    r.2.2.gate.busy = true ↔ d.gate.busy = true ∨ r.2.1.isSome = true := by
  cases h with
  | refused | engaged | admitted => simp
  | stored _ hidle => simp [hidle]

/-- An update that was let in and has ended leaves the gate as it was. -/
theorem busy_withdrawn (h : d.Responds q r) : (withdrawn r).gate.busy = d.gate.busy := by
  cases h with
  | refused | engaged => rfl
  | admitted _ _ hidle | stored _ hidle => exact hidle.symm

theorem obeys (h : d.Responds q r) : d.Obeys q.command? r.2.2.board := by
  cases h with
  | refused h => exact ⟨fun _ hq _ => absurd h (Request.not_improper_of_select hq), fun _ => rfl⟩
  | engaged _ hbusy =>
    refine ⟨fun _ _ hidle => ?_, fun _ => rfl⟩
    cases hbusy.symm.trans hidle
  | admitted hq =>
    refine ⟨fun _ hq' _ => ?_, fun _ => rfl⟩
    cases hq.symm.trans hq'
  | stored hq hidle _ hw =>
    refine ⟨fun _ hq' _ => ?_, fun hbusy => ?_⟩
    · cases hq.symm.trans hq'
      exact hw
    · cases hidle.symm.trans (hbusy _ hq)

/-- While a session lives, whatever is asked is turned down. -/
theorem turned_down (h : d.Responds q r) (hbusy : d.gate.busy = true) :
    r.2 = (none, d) ∧ ∀ reply, r.1 = reply ↔ reply = .rejected .alreadyRunning ∧ ¬q.Improper ∨
      reply = .rejected .invalidRequest ∧ q.Improper := by
  cases h with
  | refused h => simp [h, eq_comm]
  | engaged h => simp [h, eq_comm]
  | admitted _ _ hidle | stored _ hidle =>
    rw [hbusy] at hidle
    cases hidle

end Responds

/-- The call fails, as there is no room for the reply. -/
def Fails (d : Desk) : Request → Prop
  | .plain _ => False
  | .framed frame room => (d.handle frame room).1 = .error .encode

/-- A response is told, or there is no room for it. -/
inductive Asked (d : Desk) (q : Request) : Option Reply × Option Source × Desk → Prop
  | told {r : Reply × Option Source × Desk} (h : d.Responds q r) (hroom : q.HasRoom r.1)
      (hfails : ¬d.Fails q) : Asked d q (some r.1, r.2)
  | untold {r : Reply × Option Source × Desk} (h : d.Responds q r) (hroom : ¬q.HasRoom r.1)
      (hfails : d.Fails q) : Asked d q (none, none, withdrawn r)

theorem ask_asked (d : Desk) (q : Request) : d.Asked q (d.ask q) := by
  have hresponds := d.respond_responds q
  generalize hr : d.respond q.command? = r at hresponds
  cases q with
  | plain c =>
    have hdone : d.dispatch c = r := hr
    have hasked : d.ask (.plain c) = (some r.1, r.2) := by simp only [ask, hdone]
    rw [hasked]
    exact .told hresponds trivial id
  | framed frame room =>
    have hhandled := d.handle_eq frame room hr
    by_cases hroom : (Codec.reply.frame r.1).length ≤ room
    · rw [if_pos hroom] at hhandled
      have hanswer := Codec.reply_faithful.unframe?_frame r.1 []
      rw [List.append_nil] at hanswer
      have hasked : d.ask (.framed frame room) = (some r.1, r.2) := by
        simp only [ask, hhandled, hanswer]
      rw [hasked]
      exact .told hresponds hroom (by simp [Fails, hhandled])
    · rw [if_neg hroom] at hhandled
      have hasked : d.ask (.framed frame room) = (none, none, withdrawn r) := by
        simp only [ask, hhandled]
      rw [hasked]
      exact .untold hresponds hroom (by simp [Fails, hhandled])

/-- What holds of a request, where the one who asks is told `reply`, a session with `source` is
handed out, and the desk is `d'` after it. -/
structure Admits (d : Desk) (q : Request) (reply : Option Reply) (source : Option Source)
    (d' : Desk) : Prop where
  /-- A session is handed out for a proper request to start, if none lives and this can be told. -/
  handed : ∀ s, source = some s ↔ q.command? = some (.start s) ∧ s.Valid ∧
    d.gate.busy = false ∧ q.HasRoom .accepted
  accepted : reply = some .accepted ↔ source.isSome = true
  untold : reply = none ↔ d.Fails q
  /-- If it cannot be told, no session stays. -/
  withdrawn : ∀ s, q.command? = some (.start s) → s.Valid → d.gate.busy = false →
    ¬q.HasRoom .accepted → d.Fails q ∧ d'.gate.busy = false
  gate : d'.gate.busy = true ↔ d.gate.busy = true ∨ source.isSome = true
  /-- A selection that comes while no session lives is stored, and nothing else is done to the
  device. -/
  board : d.Obeys q.command? d'.board
  /-- While a session lives, every request is turned down. -/
  engaged : d.gate.busy = true → d' = d ∧ ∀ r, reply = some r ↔ q.HasRoom r ∧
    (r = .rejected .alreadyRunning ∧ ¬q.Improper ∨ r = .rejected .invalidRequest ∧ q.Improper)

theorem board_withdrawn (r : Reply × Option Source × Desk) : (withdrawn r).board = r.2.2.board := by
  obtain ⟨reply, _ | s, d⟩ := r <;> rfl

theorem ask_admits (d : Desk) (q : Request) :
    d.Admits q (d.ask q).1 (d.ask q).2.1 (d.ask q).2.2 := by
  have hasked := d.ask_asked q
  generalize d.ask q = a at hasked
  cases hasked with
  | @told r h hroom hfails =>
    have haccepted : ∀ {s}, r.2.1 = some s → q.HasRoom .accepted := fun hs => by
      rwa [← h.reply_eq_accepted.2 (by rw [hs]; rfl)]
    refine
      { handed := fun s => ?_
        accepted := by simpa using h.reply_eq_accepted
        untold := iff_of_false (by simp) hfails
        withdrawn := fun s hq hs hidle hno => ?_
        gate := h.busy_iff
        board := h.obeys
        engaged := fun hbusy => ?_ }
    · rw [h.source_eq_some]
      constructor
      · rintro ⟨hq, hs, hidle⟩
        exact ⟨hq, hs, hidle, haccepted ((h.source_eq_some s).2 ⟨hq, hs, hidle⟩)⟩
      · rintro ⟨hq, hs, hidle, _⟩
        exact ⟨hq, hs, hidle⟩
    · exact absurd (haccepted ((h.source_eq_some s).2 ⟨hq, hs, hidle⟩)) hno
    · obtain ⟨hr, hreply⟩ := h.turned_down hbusy
      refine ⟨by rw [hr], fun reply => ?_⟩
      rw [← hreply, Option.some_inj]
      exact ⟨fun he => ⟨he ▸ hroom, he⟩, And.right⟩
  | @untold r h hroom hfails =>
    refine
      { handed := fun s => iff_of_false (by simp) fun hhanded => hroom ?_
        accepted := by simp
        untold := iff_of_true rfl hfails
        withdrawn := fun s hq hs hidle _ => ⟨hfails, by rw [h.busy_withdrawn, hidle]⟩
        gate := by simp [h.busy_withdrawn]
        board := by rw [board_withdrawn]; exact h.obeys
        engaged := fun hbusy => ?_ }
    · obtain ⟨hq, hs, hidle, hyes⟩ := hhanded
      have hsource := (h.source_eq_some s).2 ⟨hq, hs, hidle⟩
      rwa [h.reply_eq_accepted.2 (by rw [hsource]; rfl)]
    · obtain ⟨hr, hreply⟩ := h.turned_down hbusy
      have hsame : Desk.withdrawn r = d := by rw [Desk.withdrawn, hr]
      refine ⟨hsame, fun reply => iff_of_false (by simp) fun htold => hroom ?_⟩
      obtain ⟨hyes, hsaid⟩ := htold
      rwa [(hreply reply).2 hsaid]

end Desk

/-! ## Any number of requests -/

/-- A desk, and the sessions that live. They are numbered as they are handed out. -/
structure Lobby where
  desk : Desk
  alive : List Nat := []
  issued : Nat := 0

inductive Turn where
  | ask (q : Request)
  /-- A session ends, if it still lives. -/
  | leave (session : Nat)

namespace Lobby

/-- Nothing runs yet. -/
def opened (board : Board) : Lobby := { desk := { gate := {}, board } }

/-- A session that is handed out lives from then on. -/
def seat (l : Lobby) : Option Source × Desk → Lobby
  | (some _, desk) => { desk, alive := l.alive ++ [l.issued], issued := l.issued + 1 }
  | (none, desk) => { l with desk }

def take (l : Lobby) : Turn → Lobby
  | .ask q => l.seat (l.desk.ask q).2
  | .leave session =>
    if session ∈ l.alive then
      { l with
        desk := { l.desk with gate := l.desk.gate.leave }
        alive := l.alive.erase session }
    else l

def after (l : Lobby) (turns : List Turn) : Lobby := turns.foldl take l

/-- The desk is busy exactly if one session lives, and no more than one does. The next will have a
new number. -/
structure Orderly (l : Lobby) : Prop where
  busy_iff : l.desk.gate.busy = true ↔ l.alive.length = 1
  length_le : l.alive.length ≤ 1
  lt_issued : ∀ session ∈ l.alive, session < l.issued

theorem orderly_opened (board : Board) : (opened board).Orderly :=
  ⟨by simp [opened], by simp [opened], by simp [opened]⟩

variable {l : Lobby}

theorem take_ask (l : Lobby) (q : Request) : l.take (.ask q) = l.seat (l.desk.ask q).2 := rfl

theorem seat_eq (l : Lobby) (source : Option Source) (desk : Desk) :
    l.seat (source, desk) = if source.isSome = true then
      { desk, alive := l.alive ++ [l.issued], issued := l.issued + 1 } else { l with desk } := by
  cases source <;> rfl

theorem Orderly.take (h : l.Orderly) (t : Turn) : (l.take t).Orderly := by
  cases t with
  | ask q =>
    have hadmits := l.desk.ask_admits q
    rw [take_ask]
    generalize l.desk.ask q = a at hadmits
    obtain ⟨reply, source, desk⟩ := a
    cases source with
    | none =>
      have hbusy := hadmits.gate
      simp only [Option.isSome_none, Bool.false_eq_true, or_false] at hbusy
      exact ⟨hbusy.trans h.busy_iff, h.length_le, h.lt_issued⟩
    | some s =>
      -- A session is handed out only if none lives.
      obtain ⟨_, _, hidle, _⟩ := (hadmits.handed s).1 rfl
      have hlength := h.length_le
      have hone : ¬l.alive.length = 1 := by rw [← h.busy_iff, hidle]; simp
      have hnil : l.alive = [] := List.length_eq_zero_iff.1 (by omega)
      have hbusy : desk.gate.busy = true := hadmits.gate.2 (.inr rfl)
      simp only [seat, hnil]
      exact ⟨by simp [hbusy], by simp, by simp⟩
  | leave session =>
    unfold Lobby.take
    by_cases hs : session ∈ l.alive
    · have hlength := h.length_le
      have herase := List.length_erase_of_mem hs
      have hnil : l.alive.erase session = [] := List.length_eq_zero_iff.1 (by omega)
      simp only [if_pos hs, hnil]
      exact ⟨by simp [Gate.leave], by simp, by simp⟩
    · simp only [if_neg hs]
      exact h

theorem Orderly.after (h : l.Orderly) (turns : List Turn) : (l.after turns).Orderly := by
  induction turns generalizing l with
  | nil => exact h
  | cons t turns ih => exact ih (h.take t)

/-- Besides, any request is admitted as it should be, and if it is accepted a new session lives from
then on. The end of a session leaves the device alone. -/
structure Exclusive (l : Lobby) : Prop extends Orderly l where
  asked : ∀ q,
    l.desk.Admits q (l.desk.ask q).1 (l.desk.ask q).2.1 (l.take (.ask q)).desk ∧
    (l.take (.ask q)).alive =
      if (l.desk.ask q).1 = some .accepted then l.alive ++ [l.issued] else l.alive
  left : ∀ session, (l.take (.leave session)).desk.board = l.desk.board ∧
    (session ∈ l.alive → (l.take (.leave session)).desk.gate.busy = false)

theorem Orderly.exclusive (h : l.Orderly) : l.Exclusive where
  toOrderly := h
  asked q := by
    have hadmits := l.desk.ask_admits q
    rw [take_ask]
    generalize l.desk.ask q = a at hadmits ⊢
    obtain ⟨reply, source, desk⟩ := a
    simp only [seat_eq, hadmits.accepted]
    split
    · exact ⟨hadmits, rfl⟩
    · exact ⟨hadmits, rfl⟩
  left session := by
    unfold Lobby.take
    by_cases hs : session ∈ l.alive
    · simp only [if_pos hs]
      exact ⟨trivial, fun _ => rfl⟩
    · simp only [if_neg hs]
      exact ⟨trivial, fun h => absurd h hs⟩

/-- One update at a time, whatever is asked of a new desk, and whenever sessions end. -/
theorem one_at_a_time (board : Board) (turns : List Turn) :
    ((opened board).after turns).Exclusive :=
  ((orderly_opened board).after turns).exclusive

end Lobby
end DualBank
