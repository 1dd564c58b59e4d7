import DualBank.Link.Basic

/-! A connection that follows a script. It serves given bytes, in portions that the script sets,
and may fail, or report a false count, where the script says so. -/
namespace DualBank

inductive ReadEvent where
  /-- Serve at most so many bytes. -/
  | serve (count : Nat)
  | fail (kind : IoKind)
  /-- Serve as much as possible, and report this count. -/
  | lie (count : Nat)

structure Scripted where
  /-- Bytes that are not served yet. -/
  data : Bytes
  /-- Bytes served so far. -/
  pos : Nat := 0
  /-- One event for each read, over and over. Without events a read serves what it can. -/
  script : List ReadEvent := []
  turn : Nat := 0
  /-- From this position on every read fails. -/
  failAt : Option (Nat × IoKind) := none
  writeMax : Option Nat := none
  writeError : Option IoKind := none
  flushError : Option IoKind := none
  /-- Bytes taken from writes. -/
  sent : Bytes := []

namespace Scripted

/-- Hands out up to `limit` bytes, and reports `report` of their number. -/
def serve (s : Scripted) (limit : Nat) (report : Nat → Nat) : Answer IoKind Scripted Delivery :=
  let bytes := s.data.take limit
  { result := .ok ⟨bytes, report bytes.length⟩
    link := { s with data := s.data.drop limit, pos := s.pos + bytes.length } }

def readEvent (room : Nat) (s : Scripted) : Answer IoKind Scripted Delivery :=
  let next := { s with turn := s.turn + 1 }
  match s.script[s.turn % s.script.length]? with
  | none => s.serve room id
  | some (.fail kind) => ⟨.error kind, next, []⟩
  | some (.serve count) => next.serve (min count room) id
  | some (.lie count) => next.serve room fun _ => count

def failure? (s : Scripted) : Option IoKind := do
  let (pos, kind) ← s.failAt
  if pos ≤ s.pos then some kind else none

def readSilent (room : Nat) (s : Scripted) : Answer IoKind Scripted Delivery :=
  match s.failure? with
  | some kind => ⟨.error kind, s, []⟩
  | none => if s.data = [] ∨ room = 0 then ⟨.ok ⟨[], 0⟩, s, []⟩ else s.readEvent room

def read (room : Nat) (s : Scripted) : Answer IoKind Scripted Delivery :=
  let a := s.readSilent room
  { a with calls := [.read room (a.result.map Delivery.count)] }

def write (bytes : Bytes) (s : Scripted) : Answer IoKind Scripted Nat :=
  match s.writeError with
  | some kind => ⟨.error kind, s, [.write bytes (.error kind)]⟩
  | none =>
    let taken := match s.writeMax with
      | some most => bytes.take most
      | none => bytes
    ⟨.ok taken.length, { s with sent := s.sent ++ taken }, [.write bytes (.ok taken.length)]⟩

def flush (s : Scripted) : Answer IoKind Scripted Unit :=
  match s.flushError with
  | some kind => ⟨.error kind, s, [.flush (.error kind)]⟩
  | none => ⟨.ok (), s, [.flush (.ok ())]⟩

theorem length_data_readEvent {room : Nat} {s : Scripted} {d : Delivery} (hs : s.data ≠ [])
    (hr : room ≠ 0) (h : (s.readEvent room).result = .ok d) (hd : d.count ≠ 0) :
    (s.readEvent room).link.data.length < s.data.length := by
  have hl := List.length_pos_iff.2 hs
  unfold readEvent at h ⊢
  split at h <;> simp only [serve, List.length_drop]
  · omega
  · cases h
  · simp only [serve, id_eq, Except.ok.injEq] at h
    subst h
    simp only [List.length_take] at hd
    omega
  · omega

theorem length_data_readSilent {room : Nat} {s : Scripted} {d : Delivery}
    (h : (s.readSilent room).result = .ok d) (hd : d.count ≠ 0) :
    (s.readSilent room).link.data.length < s.data.length := by
  unfold readSilent at h ⊢
  split at h
  · cases h
  · split at h
    · cases h
      exact absurd rfl hd
    · rename_i hs
      simp only [if_neg hs]
      exact length_data_readEvent (fun h => hs (.inl h)) (fun h => hs (.inr h)) h hd

instance : FiniteLink Scripted where
  read := read
  write := write
  flush := flush
  left s := s.data.length
  left_read_lt h hd := length_data_readSilent h hd

end Scripted
end DualBank
