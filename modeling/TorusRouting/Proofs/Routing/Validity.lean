import TorusRouting.Epoch.Validity
import TorusRouting.Proofs.Keyed
import TorusRouting.Proofs.Mesh.Overlap

/-!
# What validation promises

In a valid epoch every op lies on the mesh, and every pipe has inputs and outputs whose buffers are
stored. These are the facts that classification and selection rest on.
-/

namespace TorusRouting

/-- A pipe has inputs, outputs in every timestep, and stored buffers on both sides. -/
structure Pipe.Connected (p : Pipe) (e : Epoch) : Prop where
  inputs : p.inputs ≠ []
  outputs : p.outputs ≠ []
  busy : ∀ o ∈ p.outputs, o ≠ []
  input : ∀ id ∈ p.inputs, ∃ b, e.buffers.get? id = some b
  output : ∀ o ∈ p.outputs, ∀ id ∈ o, ∃ b, e.buffers.get? id = some b

namespace Epoch

variable {e : Epoch} {p : Pipe}

/-! ## Lookups -/

/-- An op is looked up by its name. -/
theorem op_eq_ok {name : String} {op : Op} :
    e.op name = .ok op ↔ e.ops.get? name = some op := by
  unfold Epoch.op
  cases e.ops.get? name with
  | none => simp [reject]
  | some op' => simp

/-- A buffer of a pipe is looked up by its id. -/
theorem pipeBuffer_eq_ok {id : BufferId} {b : Buffer} :
    e.pipeBuffer p id = .ok b ↔ e.buffers.get? id = some b := by
  unfold pipeBuffer
  cases e.buffers.get? id with
  | none => simp [reject]
  | some b' => simp

/-- A lookup of an op fails in one way only. -/
theorem op_eq_error {name : String} {f : Failure} (h : e.op name = .error f) :
    f = .error (.missingOp name) := by
  unfold Epoch.op at h
  split at h
  · cases h
  · cases h
    rfl

/-! ## Valid entries -/

private theorem checkOp_eq_ok {op : Op} : e.checkOp op = .ok () ↔ op.OnMesh e.device := by
  have haxes : op.OnMesh e.device ↔
      e.device.containsRect op.x op.y op.width op.height = true := by
    simp only [Device.containsRect, Bool.and_eq_true, decide_eq_true_eq, UInt32.lt_iff_toNat_lt,
      UInt32.toNat_zero]
    constructor
    · intro h
      exact ⟨⟨⟨(h .x).1, (h .y).1⟩, (h .x).2⟩, (h .y).2⟩
    · rintro ⟨⟨⟨hwidth, hheight⟩, hx⟩, hy⟩ (_ | _)
      · exact ⟨hwidth, hx⟩
      · exact ⟨hheight, hy⟩
  rw [haxes, checkOp]
  split
  · rename_i h
    simp [h]
  · rename_i h
    simp [reject, h]

/-- A pipe is valid when it is connected and its cores are on the mesh. -/
theorem checkPipe_eq_ok : e.checkPipe p = .ok () ↔
    p.Connected e ∧ ∀ c ∈ p.cores, e.device.containsCore c = true := by
  have hstored : ((p.inputs ++ p.allOutputs).forM fun id => do
      let _ ← e.pipeBuffer p id
      pure ()) = .ok () ↔ ∀ id ∈ p.inputs ++ p.allOutputs, ∃ b, e.buffers.get? id = some b := by
    rw [forM_eq_ok]
    refine forall₂_congr fun id _ => ?_
    rw [bind_eq_ok]
    exact exists_congr fun b => (and_iff_left rfl).trans pipeBuffer_eq_ok
  unfold checkPipe
  by_cases hempty : (p.inputs.isEmpty || p.outputs.isEmpty || p.hasIdleStep) = true
  · rw [if_pos hempty]
    simp only [Bool.or_eq_true, List.isEmpty_iff, Pipe.hasIdleStep, List.any_eq_true] at hempty
    refine iff_of_false nofun fun h => ?_
    rcases hempty with (h' | h') | ⟨o, ho, h'⟩
    · exact h.1.inputs h'
    · exact h.1.outputs h'
    · exact h.1.busy o ho h'
  · rw [if_neg hempty]
    simp only [Bool.or_eq_true, not_or, List.isEmpty_iff, Pipe.hasIdleStep,
      List.any_eq_true, not_exists, not_and] at hempty
    change ((p.inputs ++ p.allOutputs).forM _ >>= _) = _ ↔ _
    rw [bind_eq_ok]
    constructor
    · rintro ⟨⟨⟩, hbuffers, hmesh⟩
      have hbuffer := hstored.1 hbuffers
      refine ⟨⟨hempty.1.1, hempty.1.2, hempty.2, ?_, ?_⟩, ?_⟩
      · intro id hid
        exact hbuffer id (List.mem_append_left _ hid)
      · intro o ho id hid
        exact hbuffer id (List.mem_append_right _ (List.mem_flatten.2 ⟨o, ho, hid⟩))
      · split at hmesh
        · cases hmesh
        · rename_i hfind
          simpa using List.find?_eq_none.1 hfind
    · rintro ⟨h, hmesh⟩
      have hfind : p.cores.find? (!e.device.containsCore ·) = none := by
        rw [List.find?_eq_none]
        simpa using hmesh
      refine ⟨(), hstored.2 fun id hid => ?_, by rw [hfind]; rfl⟩
      rcases List.mem_append.1 hid with hid | hid
      · exact h.input id hid
      · obtain ⟨o, ho, hid⟩ := List.mem_flatten.1 hid
        exact h.output o ho id hid

/-- A buffer is valid when it is sound, and on the mesh unless it is a queue in system memory. -/
theorem checkBuffer_eq_ok {b : Buffer} : e.checkBuffer b = .ok () ↔ b.check = .ok () ∧
    ((b.isQueue = true ∧ b.core.isSystemMemory = true) ∨ e.device.containsCore b.core = true) := by
  rw [checkBuffer, bind_eq_ok]
  have hmesh : (!(b.isQueue && b.core.isSystemMemory) && !e.device.containsCore b.core) = true ↔
      ¬ ((b.isQueue = true ∧ b.core.isSystemMemory = true) ∨
        e.device.containsCore b.core = true) := by
    rw [not_or, Bool.and_eq_true, Bool.not_eq_true', Bool.not_eq_true', ← Bool.not_eq_true,
      ← Bool.not_eq_true, Bool.and_eq_true]
  constructor
  · rintro ⟨⟨⟩, hcheck, h⟩
    refine ⟨hcheck, ?_⟩
    split at h
    · cases h
    · rename_i hon
      exact not_not.1 (mt hmesh.2 hon)
  · rintro ⟨hcheck, hon⟩
    exact ⟨(), hcheck, if_neg (mt hmesh.1 (not_not.2 hon))⟩

/-- An epoch is valid when every entry is. -/
theorem validate_eq_ok : e.validate = .ok () ↔ (∀ op ∈ e.ops.values, op.OnMesh e.device) ∧
    (∀ b ∈ e.buffers.values, e.checkBuffer b = .ok ()) ∧
    ∀ p ∈ e.pipes.values, e.checkPipe p = .ok () := by
  have hops : e.ops.values.forM e.checkOp = .ok () ↔ ∀ op ∈ e.ops.values, op.OnMesh e.device :=
    forM_eq_ok.trans (forall₂_congr fun _ _ => checkOp_eq_ok)
  rw [validate, bind_eq_ok, ← hops, ← forM_eq_ok, ← forM_eq_ok]
  constructor
  · rintro ⟨⟨⟩, hops, h⟩
    obtain ⟨⟨⟩, hbuffers, hpipes⟩ := bind_eq_ok.1 h
    exact ⟨hops, hbuffers, hpipes⟩
  · rintro ⟨hops, hbuffers, hpipes⟩
    exact ⟨(), hops, bind_eq_ok.2 ⟨(), hbuffers, hpipes⟩⟩

/-- The ops of a valid epoch lie on the mesh. -/
theorem onMesh_of_validate (h : e.validate = .ok ()) :
    ∀ op ∈ e.ops.values, op.OnMesh e.device := (validate_eq_ok.1 h).1

/-- The pipes of a valid epoch are connected. -/
theorem connected_of_validate (h : e.validate = .ok ()) :
    ∀ p ∈ e.pipes.values, p.Connected e :=
  fun p hp => (checkPipe_eq_ok.1 ((validate_eq_ok.1 h).2.2 p hp)).1

end Epoch

namespace Pipe.Connected

variable {p : Pipe} {e : Epoch}

/-- The first buffers on both sides of a connected pipe are stored. -/
theorem exists_first (h : p.Connected e) :
    (∃ id b, p.firstInput? = some id ∧ e.buffers.get? id = some b) ∧
      ∃ id b, p.firstOutput? = some id ∧ e.buffers.get? id = some b := by
  obtain ⟨i, is, hi⟩ := List.exists_cons_of_ne_nil h.inputs
  obtain ⟨o, os, ho⟩ := List.exists_cons_of_ne_nil h.outputs
  have hmem : o ∈ p.outputs := ho ▸ List.mem_cons_self ..
  obtain ⟨j, js, hj⟩ := List.exists_cons_of_ne_nil (h.busy o hmem)
  obtain ⟨b, hb⟩ := h.input i (hi ▸ List.mem_cons_self ..)
  obtain ⟨b', hb'⟩ := h.output o hmem j (hj ▸ List.mem_cons_self ..)
  refine ⟨⟨i, b, ?_, hb⟩, j, b', ?_, hb'⟩
  · rw [firstInput?, hi]
    rfl
  · rw [firstOutput?, ho, hj]
    rfl

/-- A connected pipe writes a buffer at every step. -/
theorem hasIdleStep (h : p.Connected e) : p.hasIdleStep = false := by
  simpa [Pipe.hasIdleStep] using h.busy

end Pipe.Connected

end TorusRouting
