import DualBank.Channel
import DualBank.Proofs.Framing

/-! Commands that come in frames. The frame of a command reads as the command, and a desk that gets
it does what it does with the command itself. Whatever else comes is refused, and leaves the desk
alone. A buffer of four bytes has room for every reply. -/
namespace DualBank

open Wire (Codec)

namespace Desk

/-- What the desk does about a command, or about bytes that are none. -/
def respond (d : Desk) : Option Command → Reply × Option Source × Desk
  | some c => d.dispatch c
  | none => (.rejected .invalidRequest, none, d)

/-- The desk after a response that nobody is told of: an update that it let in has ended. -/
def withdrawn (r : Reply × Option Source × Desk) : Desk :=
  match r.2.1 with
  | some _ => { r.2.2 with gate := r.2.2.gate.leave }
  | none => r.2.2

/-- A response goes out if there is room for its reply. -/
theorem handle_eq (d : Desk) (frame : Bytes) (room : Nat) {r : Reply × Option Source × Desk}
    (hr : d.respond (Codec.command.unframe? frame) = r) : d.handle frame room =
      if (Codec.reply.frame r.1).length ≤ room then (.ok (Codec.reply.frame r.1, r.2.1), r.2.2)
      else (.error .encode, withdrawn r) := by
  unfold handle
  cases hread : Codec.command.unframe? frame with
  | none =>
    rw [hread] at hr
    subst hr
    rfl
  | some c =>
    rw [hread] at hr
    have hdone : d.dispatch c = r := hr
    simp only [hdone, withdrawn]
    split
    · rfl
    · cases r.2.1 <;> rfl

/-- The response to a frame comes through: the caller reads the reply, is handed the source, and the
desk is as the response leaves it. -/
def Conveys (d : Desk) (frame : Bytes) (room : Nat) (r : Reply × Option Source × Desk) : Prop :=
  ∃ answer, d.handle frame room = (.ok (answer, r.2.1), r.2.2) ∧ answer.length ≤ room ∧
    ∀ rest, Codec.reply.unframe? (answer ++ rest) = some r.1

theorem conveys_respond {d : Desk} {frame : Bytes} {room : Nat}
    {r : Reply × Option Source × Desk} (hr : d.respond (Codec.command.unframe? frame) = r)
    (hroom : (Codec.reply.frame r.1).length ≤ room) : d.Conveys frame room r :=
  ⟨Codec.reply.frame r.1, by rw [d.handle_eq frame room hr, if_pos hroom], hroom,
    Codec.reply_faithful.unframe?_frame r.1⟩

/-- Nothing is lost on the way. A command that is framed is read as it was, whatever follows, and
the desk responds to it as to the command itself. To any bytes at all there is a response, and a
buffer of four bytes takes its reply; what is no command is refused and changes nothing. -/
theorem channel_lossless (d : Desk) :
    (∀ (c : Command) (rest : Bytes),
      Codec.command.unframe? (Codec.command.frame c ++ rest) = some c ∧
      (∃ body, Codec.command.frame c = body ++ [0] ∧ 0 ∉ body) ∧
      ∀ room, (Codec.reply.frame (d.dispatch c).1).length ≤ room →
        d.Conveys (Codec.command.frame c ++ rest) room (d.dispatch c)) ∧
    ∀ (input : Bytes) (room : Nat), 4 ≤ room →
      d.Conveys input room (match Codec.command.unframe? input with
        | some c => d.dispatch c
        | none => (.rejected .invalidRequest, none, d)) := by
  refine ⟨fun c rest => ?_, fun input room hroom => ?_⟩
  · have hread := Codec.command_faithful.unframe?_frame c rest
    refine ⟨hread, Wire.Cobs.encode_eq _, fun room hroom => ?_⟩
    exact conveys_respond (by rw [hread]; rfl) hroom
  · have hresponse : d.respond (Codec.command.unframe? input) = match
        Codec.command.unframe? input with
        | some c => d.dispatch c
        | none => (.rejected .invalidRequest, none, d) := by
      cases Codec.command.unframe? input <;> rfl
    exact conveys_respond hresponse (Nat.le_trans (Codec.length_frame_reply_le _) hroom)

end Desk

namespace Sample

/-- Nothing runs yet, and both words are erased. -/
def freshDesk : Desk where
  gate := {}
  board := { chip := { size := 0 }, store := .memory {} }

def download : Source := .http ⟨"update.local", by decide⟩ 8080 ⟨"/bank2.bin", by decide⟩

end Sample

/-- A command with text in it, and a frame that ends at once. -/
theorem Desk.channel_lossless_sample :
    Codec.command.unframe? (Codec.command.frame (.start Sample.download) ++ [1, 0]) =
      some (.start Sample.download) ∧
    Sample.freshDesk.Conveys (Codec.command.frame (.start Sample.download) ++ [1, 0]) 4
      (.accepted, some Sample.download, { Sample.freshDesk with gate := ⟨true⟩ }) ∧
    Sample.freshDesk.Conveys [0, 7] 4 (.rejected .invalidRequest, none, Sample.freshDesk) := by
  obtain ⟨hcommand, hany⟩ := Desk.channel_lossless Sample.freshDesk
  obtain ⟨hread, _, hconveys⟩ := hcommand (.start Sample.download) [1, 0]
  have hundecodable : Codec.command.unframe? [0, 7] = none := by
    have hdata : Wire.Cobs.decode [0, 7] = some [] := by simp [Wire.Cobs.decode, Wire.Cobs.ungroup]
    rw [Codec.unframe?, hdata]
    rfl
  have hrefused := hany [0, 7] 4 (by decide)
  rw [hundecodable] at hrefused
  exact ⟨hread, hconveys 4 (Codec.length_frame_reply_le _), hrefused⟩

end DualBank
