import Mathlib.Tactic.MkIffOfInductiveProp
import TorusRouting.File.Format
import TorusRouting.Proofs.File.Laws

/-!
# Epoch files are read back as they were written

Every list of epochs whose counts are words is read back from its own file, tables in the same
order. A file that was cut short is refused wherever the cut falls.
-/

namespace TorusRouting

/-! ## Counts that fit a word -/

/-- The name and the inputs of an op have a word for their lengths. -/
@[mk_iff]
structure Op.Fits (o : Op) : Prop where
  name : o.name.utf8ByteSize < UInt64.size
  inputs : o.inputs.length < UInt64.size

/-- The names in a buffer have a word for their lengths. -/
@[mk_iff]
structure Buffer.Fits (b : Buffer) : Prop where
  queue : ∀ q ∈ b.queue, q.name.utf8ByteSize < UInt64.size
  owner : ∀ o ∈ b.owner, o.op.utf8ByteSize < UInt64.size

/-- Every list of a pipe has a word for its length. -/
@[mk_iff]
structure Pipe.Fits (p : Pipe) : Prop where
  inputs : p.inputs.length < UInt64.size
  timesteps : p.outputs.length < UInt64.size
  outputs : ∀ step ∈ p.outputs, step.length < UInt64.size
  cores : p.cores.length < UInt64.size

/-- Every list, table and text of the epoch has a word for its length, as all that is held in
memory has. -/
@[mk_iff]
structure Epoch.Fits (e : Epoch) : Prop where
  ethernet : e.device.ethernet.length < UInt64.size
  ops : e.ops.toList.length < UInt64.size
  op : ∀ entry ∈ e.ops.toList, entry.1.utf8ByteSize < UInt64.size ∧ entry.2.Fits
  buffers : e.buffers.toList.length < UInt64.size
  buffer : ∀ entry ∈ e.buffers.toList, entry.2.Fits
  pipes : e.pipes.toList.length < UInt64.size
  pipe : ∀ entry ∈ e.pipes.toList, entry.2.Fits

instance (o : Op) : Decidable o.Fits := decidable_of_iff _ (Op.fits_iff o).symm

instance (b : Buffer) : Decidable b.Fits := decidable_of_iff _ (Buffer.fits_iff b).symm

instance (p : Pipe) : Decidable p.Fits := decidable_of_iff _ (Pipe.fits_iff p).symm

instance (e : Epoch) : Decidable e.Fits := decidable_of_iff _ (Epoch.fits_iff e).symm

namespace File

/-! ## The codecs of the format -/

namespace Codec

private theorem network_lawful : network.Lawful fun _ => True :=
  oneOf_lawful (by rintro (_ | _) <;> simp) (by decide)

private theorem coord_lawful : coord.Lawful fun _ => True :=
  ((word32_lawful.pair word32_lawful).iso fun _ => rfl).congr (by simp)

private theorem core_lawful : core.Lawful fun _ => True :=
  ((word32_lawful.pair <| word32_lawful.pair word32_lawful).iso fun _ => rfl).congr (by simp)

private theorem device_lawful : device.Lawful fun d => d.ethernet.length < UInt64.size :=
  ((word32_lawful.pair <| word32_lawful.pair <| coord_lawful.list.pair <|
    word64_lawful.pair word64_lawful).iso fun _ => rfl).congr (by simp)

private theorem broadcast_lawful : broadcast.Lawful fun _ => True :=
  ((bool_lawful.pair <| bool_lawful.pair bool_lawful).iso fun _ => rfl).congr (by simp)

private theorem op_lawful : op.Lawful Op.Fits :=
  ((text_lawful.pair <| word32_lawful.pair <| word32_lawful.pair <| word32_lawful.pair <|
    word32_lawful.pair <| word32_lawful.pair <| bool_lawful.pair <| bool_lawful.pair
    broadcast_lawful.list).iso fun _ => rfl).congr (by simp [Op.fits_iff])

private theorem bufferId_lawful : bufferId.Lawful fun _ => True := word64_lawful.iso fun _ => rfl

private theorem pipeId_lawful : pipeId.Lawful fun _ => True := word64_lawful.iso fun _ => rfl

private theorem bufferKind_lawful : bufferKind.Lawful fun _ => True :=
  oneOf_lawful (by rintro (_ | _ | _ | _ | _ | _) <;> simp) (by decide)

private theorem queueInfo_lawful : queueInfo.Lawful fun q => q.name.utf8ByteSize < UInt64.size := by
  have hsite : (oneOf [QueueSite.dram, .host]).Lawful fun _ => True :=
    oneOf_lawful (by rintro (_ | _) <;> simp) (by decide)
  exact ((text_lawful.pair <| hsite.pair bool_lawful).iso fun _ => rfl).congr (by simp)

private theorem owner_lawful : owner.Lawful fun o => o.op.utf8ByteSize < UInt64.size := by
  apply Lawful.congr (.iso (text_lawful.either (text_lawful.pair word64_lawful)) ?_)
  · rintro (_ | _) <;> simp [Owner.op]
  · rintro (_ | _) <;> rfl

private theorem buffer_lawful : buffer.Lawful Buffer.Fits :=
  ((bufferId_lawful.pair <| bufferKind_lawful.pair <| core_lawful.pair <|
    queueInfo_lawful.option.pair <| owner_lawful.option.pair <| word64_lawful.pair <|
    word64_lawful.pair <| word64_lawful.pair word64_lawful).iso fun _ => rfl).congr
    (by simp [Buffer.fits_iff])

private theorem channel_lawful : channel.Lawful fun _ => True :=
  oneOf_lawful (by rintro (_ | _ | _ | _) <;> simp) (by decide)

private theorem route_lawful : route.Lawful fun _ => True :=
  ((network_lawful.pair <| network_lawful.pair <| channel_lawful.pair channel_lawful).iso
    fun _ => rfl).congr (by simp)

private theorem fit_lawful : fit.Lawful fun _ => True := by
  apply Lawful.congr (.iso (unit_lawful.either word32_lawful) ?_)
  · rintro (_ | _) <;> simp
  · rintro (_ | _) <;> rfl

private theorem routing_lawful : routing.Lawful fun _ => True :=
  ((route_lawful.option.pair <| bool_lawful.pair <| fit_lawful.pair bool_lawful).iso
    fun _ => rfl).congr (by simp)

private theorem pipe_lawful : pipe.Lawful Pipe.Fits :=
  ((pipeId_lawful.pair <| bufferId_lawful.list.pair <| bufferId_lawful.list.list.pair <|
    core_lawful.list.pair routing_lawful.option).iso fun _ => rfl).congr
    (by simp [Pipe.fits_iff, and_assoc])

/-- An epoch can be written if its lists and texts have lengths that are words. -/
theorem epoch_lawful : epoch.Lawful Epoch.Fits :=
  ((word64_lawful.pair <| device_lawful.pair <| (text_lawful.table op_lawful).pair <|
    (bufferId_lawful.table buffer_lawful).pair (pipeId_lawful.table pipe_lawful)).iso
    fun _ => rfl).congr (by simp [Epoch.fits_iff, and_assoc])

end Codec

/-- Every count of the list and of its epochs is a word. -/
def Fits (epochs : List Epoch) : Prop := epochs.length < UInt64.size ∧ ∀ e ∈ epochs, e.Fits

instance (epochs : List Epoch) : Decidable (Fits epochs) :=
  inferInstanceAs (Decidable (_ ∧ _))

/-- The bytes of a file are taken for the epochs that were written. -/
theorem takes_write (epochs : List Epoch) :
    Takes Codec.epoch.list.read (write epochs) epochs (Fits epochs) :=
  Codec.epoch_lawful.list epochs

/-- What was written is read back, and bytes behind it are ignored. -/
theorem read_write_append {epochs : List Epoch} (h : Fits epochs) (rest : List UInt8) :
    read (write epochs ++ rest) = .ok epochs := by
  rw [read, (takes_write epochs).whole h]
  rfl

/-- What does not fit is refused, not misread. -/
theorem read_write_of_not_fits {epochs : List Epoch} (h : ¬ Fits epochs) :
    ∃ x, read (write epochs) = .error x := by
  obtain ⟨x, hx⟩ := (takes_write epochs).refused h []
  rw [List.append_nil] at hx
  exact ⟨x, by rw [read, hx]; rfl⟩

/-- A file is read back as the epochs that were written, every table in its order. So no other
list of epochs has the same file. -/
theorem file_round_trip {epochs : List Epoch} (h : Fits epochs) :
    read (write epochs) = .ok epochs ∧ ∀ others, write others = write epochs → others = epochs := by
  have hread : read (write epochs) = .ok epochs := by
    simpa using read_write_append h []
  refine ⟨hread, fun others hsame => ?_⟩
  rw [← hsame] at hread
  by_cases hfits : Fits others
  · have hother := read_write_append hfits []
    rw [List.append_nil, hread] at hother
    exact (Except.ok.inj hother).symm
  · obtain ⟨x, hx⟩ := read_write_of_not_fits hfits
    rw [hread] at hx
    cases hx

/-- Two epochs with a routing of each sort, a name outside ASCII, keys that differ from the ids
under them, and the largest words. -/
def sampleFile : List Epoch := [
  { index := 18446744073709551615
    device := { gridX := 4294967295, gridY := 2, ethernet := [⟨0, 1⟩, ⟨3, 1⟩]
                l1Bytes := 18446744073709551615, reservedBytes := 0 }
    ops := .ofList [
      ("Σ", ⟨"Σ", 0, 1, 0, 2, 1, true, false, [{ row := true }, { col := true, noc1 := true }]⟩),
      ("", ⟨"unnamed", 1, 0, 0, 1, 1, false, true, []⟩)]
    buffers := .ofList [
      (⟨300⟩, ⟨⟨7⟩, .queue, ⟨0, 255, 255⟩, some ⟨"q", .host, true⟩, none, 1, 1, 0, 0⟩),
      (⟨2⟩, ⟨⟨2⟩, .opInput, ⟨1, 0, 0⟩, none, some (.consumer "Σ" 200), 16, 2, 8, 4⟩)]
    pipes := .ofList [
      (⟨9⟩, ⟨⟨9⟩, [⟨300⟩], [[⟨2⟩], []], [⟨0, 1, 1⟩],
        some ⟨some ⟨.noc1, .noc0, .dramWrite, .unicast⟩, true, .bestEffort 0, true⟩⟩),
      (⟨4⟩, ⟨⟨5⟩, [], [], [], some ⟨none, false, .exact, false⟩⟩),
      (⟨1⟩, ⟨⟨1⟩, [⟨2⟩, ⟨2⟩], [[⟨2⟩, ⟨300⟩]], [], none⟩)] },
  .new 0 { gridX := 0, gridY := 0, ethernet := [], l1Bytes := 0, reservedBytes := 0 }]

/-- The sample file is read back. -/
theorem file_round_trip_sampleFile :
    Fits sampleFile ∧ read (write sampleFile) = .ok sampleFile := by
  have hfits : Fits sampleFile := by decide
  exact ⟨hfits, (file_round_trip hfits).1⟩

/-- A file that was cut short is refused, wherever the cut falls. If the counts of what was written
are words, the reason is that the bytes end. -/
theorem truncated_refused {epochs : List Epoch} {part : List UInt8} (h : part <+: write epochs)
    (hne : part ≠ write epochs) :
    ∃ x, read part = .error x ∧ (Fits epochs → x = .ended ∨ x = .endedInText) := by
  obtain ⟨x, hx, hend⟩ := (takes_write epochs).cut part h hne
  exact ⟨x, by rw [read, hx]; rfl, hend⟩

/-- One op, with a name of two bytes. -/
def oneOpFile : List Epoch := [
  { index := 300
    device := { gridX := 4, gridY := 2, ethernet := [], l1Bytes := 1024, reservedBytes := 0 }
    ops := .ofList [("Σ", ⟨"Σ", 0, 1, 0, 2, 1, true, false, []⟩)]
    buffers := .empty
    pipes := .empty }]

/-- The cut falls between the two bytes of the name. -/
theorem truncated_refused_oneOpFile :
    (write oneOpFile).take 37 <+: write oneOpFile ∧ (write oneOpFile).take 37 ≠ write oneOpFile ∧
    ∃ x, read ((write oneOpFile).take 37) = .error x ∧ (x = .ended ∨ x = .endedInText) := by
  have hpart : (write oneOpFile).take 37 <+: write oneOpFile := List.take_prefix ..
  have hlength : 37 < (write oneOpFile).length := by decide +kernel
  have hne : (write oneOpFile).take 37 ≠ write oneOpFile := by
    intro heq
    have htake := congrArg List.length heq
    rw [List.length_take] at htake
    omega
  obtain ⟨x, hx, hend⟩ := truncated_refused hpart hne
  exact ⟨hpart, hne, x, hx, hend (by decide)⟩

end File

end TorusRouting
