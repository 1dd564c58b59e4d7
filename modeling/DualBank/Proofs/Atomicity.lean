import DualBank.Proofs.Admission
import DualBank.Proofs.Interruption
import DualBank.Proofs.Words

/-! Calls that fail. A desk does what it is asked before it knows whether there is room for the
reply. If there is none, an update that it let in does not stay, but a bank that it selected stays
selected. -/
namespace DualBank

open Wire (Codec)

namespace Desk

/-- What holds of a desk `d'` after a call that fails, where `command?` is what it was asked. -/
structure Undisturbed (d : Desk) (command? : Option Command) (d' : Desk) : Prop where
  busy : d'.gate.busy = d.gate.busy
  /-- A bank that the idle desk is to select is stored all the same, and nothing else is done to the
  device. -/
  board : d.Obeys command? d'.board
  bank2 : d.board.Lasting → d'.board.kept? .bank2Address = d.board.kept? .bank2Address
  active : d.board.Lasting → d'.board.kept? .activeBank = d.board.kept? .activeBank ∨
    ∃ bank, command? = some (.selectBank bank) ∧ d.gate.busy = false ∧
      d'.board.kept? .activeBank = some bank.toWord

variable {d d' : Desk} {command? : Option Command}

/-- What a selection writes is the active bank, so the address of bank 2 is not in danger. -/
theorem Undisturbed.of_obeys (hbusy : d'.gate.busy = d.gate.busy)
    (h : d.Obeys command? d'.board) : d.Undisturbed command? d' := by
  by_cases hselects : ∃ bank, command? = some (.selectBank bank) ∧ d.gate.busy = false
  · obtain ⟨bank, hc, hidle⟩ := hselects
    have hputs (hl : d.board.Lasting) : d.board.Puts .activeBank bank.toWord d'.board := by
      obtain ⟨_, b, hsame, hputs⟩ :=
        ((h.stored bank hc hidle).ends.and (hl.writeSlot _ _)).outcome
      exact hsame ▸ hputs
    refine ⟨hbusy, h, fun hl => ?_, fun hl => ?_⟩
    · exact ((hputs hl).kept .bank2Address).resolve_right fun hother => nomatch hother.1
    · exact ((hputs hl).kept .activeBank).imp id fun hset => ⟨bank, hc, hidle, hset.2⟩
  · have hsame : d'.board = d.board := h.kept fun bank hc =>
      Bool.of_not_eq_false fun hidle => hselects ⟨bank, hc, hidle⟩
    exact ⟨hbusy, h, fun _ => by rw [hsame], fun _ => .inl (by rw [hsame])⟩

/-- If there is no room for the reply, nothing has happened to the desk and to its words, unless it
was idle and was to select a bank. That has been done, by one write. -/
theorem handle_undisturbed {frame : Bytes} {room : Nat} {e : CommandError}
    (h : d.handle frame room = (.error e, d')) :
    d.Undisturbed (Codec.command.unframe? frame) d' := by
  have hresponds := d.respond_responds (.framed frame room)
  change d.Responds _ (d.respond (Codec.command.unframe? frame)) at hresponds
  generalize hr : d.respond (Codec.command.unframe? frame) = r at hresponds
  rw [d.handle_eq frame room hr] at h
  split at h
  · cases h
  · cases h
    refine .of_obeys hresponds.busy_withdrawn ?_
    rw [board_withdrawn]
    exact hresponds.obeys

/-- What was done about a command is done, if there is no room for the reply. -/
theorem handle_frame_eq_error (d : Desk) (c : Command) {room : Nat}
    (hroom : room < (Codec.reply.frame (d.dispatch c).1).length) :
    d.handle (Codec.command.frame c) room = (.error .encode, withdrawn (d.dispatch c)) := by
  have hread := Codec.command_faithful.unframe?_frame c []
  rw [List.append_nil] at hread
  rw [d.handle_eq (Codec.command.frame c) room (congrArg d.respond hread)]
  exact if_neg (Nat.not_le.2 hroom)

end Desk

/-- An update is let in, and does not stay as there is no room to say so. -/
theorem Desk.handle_undisturbed_sample :
    Sample.freshDesk.dispatch (.start Sample.download) =
      (.accepted, some Sample.download, { Sample.freshDesk with gate := ⟨true⟩ }) ∧
    Sample.freshDesk.handle (Codec.command.frame (.start Sample.download)) 2 =
      (.error .encode, Sample.freshDesk) ∧
    Sample.freshDesk.Undisturbed
      (Codec.command.unframe? (Codec.command.frame (.start Sample.download))) Sample.freshDesk := by
  have hroom : 2 < (Codec.reply.frame
      (Sample.freshDesk.dispatch (.start Sample.download)).1).length :=
    Nat.lt_of_lt_of_eq (by decide) (Codec.length_frame_reply .accepted).symm
  have hfails := Sample.freshDesk.handle_frame_eq_error (.start Sample.download) hroom
  exact ⟨rfl, hfails, Desk.handle_undisturbed hfails⟩

namespace Sample

/-- The words are in a record that cannot be written again to its erased sector. -/
def brittleDesk : Desk where
  gate := {}
  board := brittle .write

end Sample

/-- A bank that is selected stays selected, though there is no room to say so. If the write of it
fails, the address of bank 2 may be lost with the record. -/
theorem Desk.unanswered_selection_stays :
    (∃ d', Sample.freshDesk.handle (Codec.command.frame (.selectBank .bank2)) 3 =
        (.error .encode, d') ∧
      Sample.freshDesk.board.kept? .activeBank = some erasedWord ∧
      d'.board.kept? .activeBank = some Bank.bank2.toWord) ∧
    ∃ d', Sample.brittleDesk.handle (Codec.command.frame (.selectBank .bank1)) 3 =
        (.error .encode, d') ∧
      Sample.brittleDesk.board.kept? .bank2Address = some 0x08002000 ∧
      d'.board.kept? .bank2Address = some erasedWord := by
  have hselected : 3 < (Codec.reply.frame
      (Sample.freshDesk.dispatch (.selectBank .bank2)).1).length :=
    Nat.lt_of_lt_of_eq (by decide) (Codec.length_frame_reply (.bankSelected .bank2)).symm
  have hfault : 3 < (Codec.reply.frame
      (Sample.brittleDesk.dispatch (.selectBank .bank1)).1).length :=
    Nat.lt_of_lt_of_eq (by decide) (Codec.length_frame_reply (.rejected .storageFault)).symm
  refine ⟨⟨_, Sample.freshDesk.handle_frame_eq_error _ hselected, rfl, rfl⟩,
    ⟨_, Sample.brittleDesk.handle_frame_eq_error _ hfault, ?_, ?_⟩⟩ <;> decide +kernel

end DualBank
