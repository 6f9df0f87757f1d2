import TorusRouting.Proofs.Synthesis.Chain

/-!
# The pipes that a construction lays

A step of the construction that succeeds keeps all ops, buffers and pipes. To know which pipes lead
into an op, its first inputs are watched: every pipe that is laid avoids them, or is of a kind that
was named beforehand. For an op that follows its predecessor these are the multicasts along its
rows, each from the slot of the predecessor on that row.
-/

namespace TorusRouting

namespace Epoch

/-- The ops, buffers and pipes of the first epoch are stored in the second as well. -/
structure Extends (e e' : Epoch) : Prop extends e.Under e' where
  pipe : ∀ q ∈ e.pipes.values, q ∈ e'.pipes.values

variable {e e' e'' : Epoch} {name : String} {q : Pipe}

namespace Extends

/-- An epoch extends itself. -/
theorem refl (e : Epoch) : e.Extends e := ⟨.refl e, fun _ hq => hq⟩

/-- Extensions follow one another. -/
theorem trans (h : e.Extends e') (h' : e'.Extends e'') : e.Extends e'' :=
  ⟨h.toUnder.trans h'.toUnder, fun q hq => h'.pipe q (h.pipe q hq)⟩

end Extends

private theorem addOp_extends {op : Op} (h : e.addOp op = .ok e') :
    e.Extends e' ∧ e'.pipes = e.pipes := by
  obtain ⟨hnew, rfl⟩ := addOp_eq_ok.1 h
  exact ⟨⟨⟨rfl, fun hother => Table.get?_insert_of_notMem hnew hother op, id⟩, fun _ hq => hq⟩, rfl⟩

private theorem addBuffer_extends {x : Buffer} (h : e.addBuffer x = .ok e') :
    e.Extends e' ∧ e'.pipes = e.pipes ∧ e'.buffers.get? x.id = some x := by
  obtain ⟨hnew, rfl⟩ := addBuffer_eq_ok.1 h
  refine ⟨⟨⟨rfl, id, fun hy => Table.get?_insert_of_notMem hnew hy x⟩, fun _ hq => hq⟩, rfl, ?_⟩
  rw [Table.get?_insert, if_pos rfl]

private theorem addPipe_extends (h : e.addPipe q = .ok e') :
    e.Extends e' ∧ e'.pipes.values = e.pipes.values ++ [q] := by
  obtain ⟨hnew, rfl⟩ := addPipe_eq_ok.1 h
  have hvalues := Table.values_insert_of_notMem hnew q
  refine ⟨⟨⟨rfl, id, id⟩, fun r hr => ?_⟩, hvalues⟩
  rw [hvalues]
  exact List.mem_append_left _ hr

/-- The buffer is stored, and it is no first input of the op. -/
def Clear (e : Epoch) (name : String) (id : BufferId) : Prop :=
  ∃ x, e.buffers.get? id = some x ∧ x.owner ≠ some (.consumer name 0)

/-- A buffer stays clear of the op while more is added. -/
theorem Clear.under {id : BufferId} (hid : e.Clear name id) (h : e.Under e') : e'.Clear name id :=
  hid.imp fun _ hx => ⟨h.buffer hx.1, hx.2⟩

/-- No output of the pipe is a first input of the op. -/
def Avoids (e : Epoch) (name : String) (q : Pipe) : Prop := ∀ id ∈ q.allOutputs, e.Clear name id

/-- A pipe stays away from the op while more is added. -/
theorem Avoids.under (hq : e.Avoids name q) (h : e.Under e') : e'.Avoids name q :=
  fun id hid => (hq id hid).under h

end Epoch

namespace Synthesis

namespace Build

variable {α β γ : Type} {name : String} {R : Pipe → Prop} {e : Epoch}

/-- A sequence succeeds only if both parts do. -/
theorem run_bind_eq_ok {x : Build α} {f : α → Build β} {r : β} {b b'' : Builder}
    (h : (x >>= f).run.run b = (.ok r, b'')) :
    ∃ a b', x.run.run b = (.ok a, b') ∧ (f a).run.run b' = (.ok r, b'') := by
  rw [ExceptT.run_bind, StateT.run_bind] at h
  generalize x.run.run b = first at h ⊢
  obtain ⟨result, b'⟩ := first
  cases result with
  | ok a => exact ⟨a, b', rfl, h⟩
  | error x => cases h

/-- If a step on epoch `e` succeeds, it keeps what is stored, and every pipe that it lays avoids the
first inputs of the named op or satisfies `R`. -/
def Lays (x : Build α) (name : String) (R : Pipe → Prop) (e : Epoch) (Q : α → Epoch → Prop) :
    Prop :=
  ∀ (b : Builder) (a : α) (b' : Builder), b.epoch = e → x.run.run b = (.ok a, b') →
    e.Extends b'.epoch ∧ Q a b'.epoch ∧
      ∀ q ∈ b'.epoch.pipes.values, q ∈ e.pipes.values ∨ b'.epoch.Avoids name q ∨ R q

namespace Lays

variable {x : Build α} {f : α → Build β} {Q : α → Epoch → Prop} {S : β → Epoch → Prop}

/-- A step that leaves the epoch as it is. -/
theorem still (h : ∀ b, (x.run.run b).2.epoch = b.epoch) : x.Lays name R e fun _ _ => True := by
  rintro b a b' rfl hrun
  have hsame : b'.epoch = b.epoch := by
    rw [← h b, hrun]
  rw [hsame]
  exact ⟨.refl _, trivial, fun _ => Or.inl⟩

/-- A draw moves only the keystream. -/
theorem draw (d : Randomness.Draw α) : (Build.draw d).Lays name R e fun _ _ => True := by
  refine still fun b => ?_
  rw [Build.draw, run_bind_ok (run_get b)]
  cases d.run b.stream with
  | ok r => rfl
  | error x => rfl

/-- A checked computation that goes on has a result. -/
theorem lift (x : Outcome α) : Lays (liftM x) name R e fun a _ => x = .ok a := by
  rintro b a b' rfl hrun
  cases x with
  | ok a =>
    cases hrun
    exact ⟨.refl _, rfl, fun _ => Or.inl⟩
  | error x => cases hrun

/-- A value lays no pipe. -/
theorem pure {a : α} (h : Q a e) : Lays (Pure.pure a) name R e Q := by
  rintro b _ _ rfl ⟨⟩
  exact ⟨.refl _, h, fun _ => Or.inl⟩

/-- Two steps lay what each of them lays. -/
theorem bind (hx : x.Lays name R e Q)
    (hf : ∀ a e', e.Extends e' → Q a e' → (f a).Lays name R e' S) :
    Lays (x >>= f) name R e S := by
  intro b r b'' he hrun
  obtain ⟨a, b', hfirst, hsecond⟩ := run_bind_eq_ok hrun
  obtain ⟨hext, ha, hpipes⟩ := hx b a b' he hfirst
  obtain ⟨hext', hr, hpipes'⟩ := hf a _ hext ha b' r b'' rfl hsecond
  refine ⟨hext.trans hext', hr, fun q hq => ?_⟩
  rcases hpipes' q hq with hold | hnew
  · exact (hpipes q hold).imp_right (·.imp_left (·.under hext'.toUnder))
  · exact Or.inr hnew

/-- A result may be told less of. -/
theorem mono {Q' : α → Epoch → Prop} (hx : x.Lays name R e Q)
    (h : ∀ a e', e.Extends e' → Q a e' → Q' a e') : x.Lays name R e Q' := by
  intro b a b' he hrun
  obtain ⟨hext, ha, hpipes⟩ := hx b a b' he hrun
  exact ⟨hext, h a _ hext ha, hpipes⟩

/-- Both branches of a choice lay such pipes only. -/
theorem ite {c : Prop} [Decidable c] {x₁ x₂ : Build α} (h₁ : c → x₁.Lays name R e Q)
    (h₂ : ¬ c → x₂.Lays name R e Q) : Lays (if c then x₁ else x₂) name R e Q := by
  split
  · exact h₁ ‹_›
  · exact h₂ ‹_›

/-- A loop lays what its steps lay, and what each step reached still holds at the end. -/
theorem forM {f : γ → Build Unit} {D : γ → Epoch → Prop} {l : List γ}
    (hD : ∀ {c e e'}, e.Extends e' → D c e → D c e')
    (h : ∀ c ∈ l, ∀ e', e.Extends e' → (f c).Lays name R e' fun _ => D c) :
    Lays (l.forM f) name R e fun _ e' => ∀ c ∈ l, D c e' := by
  induction l generalizing e with
  | nil => exact pure (List.forall_mem_nil _)
  | cons c l ih =>
    refine bind (h c (List.mem_cons_self ..) e (.refl e)) fun _ e₁ h₁ hc => ?_
    have hrest := ih fun x hx e' h' => h x (List.mem_cons_of_mem _ hx) e' (h₁.trans h')
    exact hrest.mono fun _ e₂ h₂ hl => List.forall_mem_cons.2 ⟨hD h₂ hc, hl⟩

/-- A step for each element of a list, of which only the pipes matter. -/
theorem each {f : γ → Build Unit} {l : List γ}
    (h : ∀ c ∈ l, ∀ e', e.Extends e' → (f c).Lays name R e' fun _ _ => True) :
    Lays (l.forM f) name R e fun _ _ => True :=
  (forM (D := fun _ _ => True) (fun _ => id) h).mono fun _ _ _ _ => trivial

/-- A traversal lays what its steps lay, and what each result satisfies still holds at the end. -/
theorem mapM {f : γ → Build α} {D : α → Epoch → Prop} {l : List γ}
    (hD : ∀ {a e e'}, e.Extends e' → D a e → D a e')
    (h : ∀ c ∈ l, ∀ e', e.Extends e' → (f c).Lays name R e' D) :
    Lays (l.mapM f) name R e fun as e' => ∀ a ∈ as, D a e' := by
  induction l generalizing e with
  | nil =>
    rw [List.mapM_nil]
    exact pure (List.forall_mem_nil _)
  | cons c l ih =>
    rw [List.mapM_cons]
    refine bind (h c (List.mem_cons_self ..) e (.refl e)) fun a e₁ h₁ ha => ?_
    refine bind (ih fun x hx e' h' => h x (List.mem_cons_of_mem _ hx) e' (h₁.trans h'))
      fun as e₂ h₂ has => pure (List.forall_mem_cons.2 ⟨hD h₂ ha, has⟩)

/-- An edit of the epoch lays the pipes that it adds. -/
theorem edit {f : Epoch → Outcome Epoch} {P : Epoch → Prop}
    (h : ∀ e', f e = .ok e' → e.Extends e' ∧ P e' ∧
      ∀ q ∈ e'.pipes.values, q ∈ e.pipes.values ∨ e'.Avoids name q ∨ R q) :
    (Build.edit f).Lays name R e fun _ => P := by
  rintro b a b' rfl hrun
  cases hf : f b.epoch with
  | ok e' =>
    rw [run_edit hf] at hrun
    cases hrun
    exact h e' hf
  | error x =>
    rw [Build.edit, run_bind_ok (run_get b), hf] at hrun
    cases hrun

/-- Choosing moves only the keystream. -/
theorem choose (l : List α) : (Build.choose l).Lays name R e fun _ _ => True :=
  (draw _).bind fun _ _ _ _ => (lift _).mono fun _ _ _ _ => trivial

end Lays

/-! ## Buffers and pipes -/

private theorem lays_addBuffer (x : Buffer) :
    (edit (·.addBuffer x)).Lays name R e fun _ e' => e'.buffers.get? x.id = some x :=
  .edit fun _ h => by
    obtain ⟨hext, hpipes, hx⟩ := Epoch.addBuffer_extends h
    exact ⟨hext, hx, fun q hq => Or.inl (hpipes ▸ hq)⟩

private theorem lays_freshBuffer : freshBuffer.Lays name R e fun _ _ => True := by
  refine .still fun b => ?_
  rw [freshBuffer, run_bind_ok (run_get b)]
  cases next64 b.nextBuffer with
  | ok n => rfl
  | error x => rfl

private theorem lays_freshPipe : freshPipe.Lays name R e fun _ _ => True := by
  refine .still fun b => ?_
  rw [freshPipe, run_bind_ok (run_get b)]
  cases next64 b.nextPipe with
  | ok n => rfl
  | error x => rfl

/-- A buffer in L1 is stored with its kind and owner, and lays no pipe. -/
theorem lays_l1Buffer (kind : BufferKind) (core : Core) (owner : Option Owner) :
    (l1Buffer kind core owner).Lays name R e fun id e' =>
      ∃ x, e'.buffers.get? id = some x ∧ x.kind = kind ∧ x.owner = owner := by
  refine lays_freshBuffer.bind fun id _ _ _ => ?_
  refine (Lays.choose _).bind fun tileBytes _ _ _ => ?_
  refine (Lays.choose _).bind fun granule _ _ _ => ?_
  refine (Lays.choose _).bind fun blocks _ _ _ => ?_
  refine (Lays.draw _).bind fun n _ _ _ => ?_
  exact (lays_addBuffer _).bind fun _ _ _ hx => .pure ⟨_, hx, rfl, rfl⟩

/-- A buffer without an owner is no input of an op. -/
theorem lays_relay (kind : BufferKind) (core : Core) :
    (l1Buffer kind core none).Lays name R e fun id e' => e'.Clear name id :=
  (lays_l1Buffer kind core none).mono fun _ _ _ hid =>
    hid.imp fun _ hx => ⟨hx.1, by simp [hx.2.2]⟩

/-- A queue is clear of every op. -/
theorem lays_queue (core : Core) (site : QueueSite) (prolog : Bool) :
    (queue core site prolog).Lays name R e fun id e' => e'.Clear name id := by
  refine lays_freshBuffer.bind fun id _ _ _ => ?_
  refine (Lays.choose _).bind fun tiles _ _ _ => ?_
  exact (lays_addBuffer _).bind fun _ _ _ hx => .pure ⟨_, hx, by simp⟩

private theorem lays_dramQueue (chip : UInt32) (prolog : Bool) :
    (dramQueue chip prolog).Lays name R e fun id e' => e'.Clear name id := by
  have hbank : (bank chip).Lays name R e fun _ _ => True :=
    (Lays.still fun _ => rfl).bind fun _ _ _ _ => (Lays.draw _).bind fun _ _ _ _ =>
      (Lays.draw _).bind fun _ _ _ _ => .pure trivial
  exact hbank.bind fun core _ _ _ => lays_queue core .dram prolog

/-- A new pipe has to stay away from the op, or to be one of those allowed. -/
theorem lays_pipe {inputs : List BufferId} {outputs : List (List BufferId)} {cores : List Core}
    (h : ∀ id, e.Avoids name ⟨id, inputs, outputs, cores, none⟩ ∨
      R ⟨id, inputs, outputs, cores, none⟩) :
    (pipe inputs outputs cores).Lays name R e fun _ e' =>
      ∃ id, ⟨id, inputs, outputs, cores, none⟩ ∈ e'.pipes.values := by
  refine lays_freshPipe.bind fun id e₁ h₁ _ => ?_
  refine .edit fun e' hadd => ?_
  obtain ⟨hext, hvalues⟩ := Epoch.addPipe_extends hadd
  refine ⟨hext, ⟨id, by simp [hvalues]⟩, fun q hq => ?_⟩
  rw [hvalues, List.mem_append, List.mem_singleton] at hq
  refine hq.imp_right ?_
  rintro rfl
  exact (h id).imp_left (·.under (h₁.trans hext).toUnder)

/-- A pipe into one buffer. -/
theorem lays_single (inputs : List BufferId) {o : BufferId} (core : Core) (h : e.Clear name o) :
    (pipe inputs [[o]] [core]).Lays name R e fun _ _ => True := by
  refine (lays_pipe fun id => Or.inl fun out hout => ?_).mono fun _ _ _ _ => trivial
  obtain rfl : out = o := by simpa [Pipe.allOutputs] using hout
  exact h

private theorem lays_unicast {i o : BufferId} {core : Core} (h : e.Clear name o) :
    (unicast i o core).Lays name R e fun _ _ => True := lays_single [i] core h

end Build

open Randomness Build

variable {name : String} {R : Pipe → Prop} {e : Epoch} {s : Slot} {producer consumer : List Slot}

/-! ## Steps that avoid an op -/

/-- The first input of another op. -/
theorem Slot.Of.clear_first {op : Op} (h : s.Of e op) (hne : op.name ≠ name) :
    e.Clear name s.first :=
  h.first.imp fun _ hx => ⟨hx.1, by simpa [hx.2.2.owner] using hne⟩

private theorem Slot.Of.clear_second {op : Op} (h : s.Of e op) : e.Clear name s.second :=
  h.second.imp fun _ hx => ⟨hx.1, by simp [hx.2.2.owner]⟩

private theorem lays_feedSecond (h : e.Clear name s.second) :
    (feedSecond s).Lays name R e fun _ _ => True := by
  have hrest (q : BufferId) (staged : Bool) {e' : Epoch} (h' : e.Extends e') :
      Lays (if staged then do
          let inter ← l1Buffer .prologInter s.core none
          unicast q inter s.core
          unicast inter s.second s.core
        else unicast q s.second s.core) name R e' fun _ _ => True := by
    refine .ite (fun _ => ?_) fun _ => lays_unicast (h.under h'.toUnder)
    refine (lays_relay _ _).bind fun inter e₁ h₁ hinter => ?_
    refine (lays_unicast hinter).bind fun _ e₂ h₂ _ => ?_
    exact lays_unicast (h.under ((h'.trans h₁).trans h₂).toUnder)
  refine (Lays.draw _).bind fun prolog e₁ h₁ _ => ?_
  refine (lays_dramQueue 0 prolog).bind fun q e₂ h₂ _ => ?_
  have h' := h₁.trans h₂
  refine .ite (fun _ => ?_) fun _ => ?_
  · exact (Lays.draw _).bind fun staged e₃ h₃ _ => hrest q staged (h'.trans h₃)
  · exact (Lays.still fun _ => rfl).bind fun staged e₃ h₃ _ => hrest q staged (h'.trans h₃)

private theorem lays_feedFirst (h : e.Clear name s.first) :
    (feedFirst s).Lays name R e fun _ _ => True :=
  (lays_dramQueue 0 false).bind fun _ _ h₁ _ => lays_unicast (h.under h₁.toUnder)

private theorem lays_drain (s : Slot) : (drain s).Lays name R e fun _ _ => True :=
  (lays_dramQueue 0 false).bind fun _ _ _ hq => lays_unicast hq

private theorem lays_linkOverEthernet (s : Slot) :
    (linkOverEthernet s).Lays name R e fun _ _ => True := by
  refine (Lays.still fun _ => rfl).bind fun b _ _ _ => (Lays.lift _).bind fun eth _ _ _ => ?_
  refine (lays_relay _ _).bind fun tx e₁ h₁ htx => ?_
  refine (lays_relay _ _).bind fun rx e₂ h₂ hrx => ?_
  refine (lays_unicast (htx.under h₂.toUnder)).bind fun _ e₃ h₃ _ => ?_
  refine (lays_unicast (hrx.under h₃.toUnder)).bind fun _ e₄ h₄ _ => ?_
  exact (lays_dramQueue 1 false).bind fun q e₅ h₅ hq => lays_unicast hq

private theorem lays_linkOverHost (s : Slot) : (linkOverHost s).Lays name R e fun _ _ => True := by
  refine (lays_queue _ _ _).bind fun q e₁ h₁ hq => ?_
  refine (lays_unicast hq).bind fun _ e₂ h₂ _ => ?_
  exact (lays_dramQueue 1 false).bind fun q e₃ h₃ hq => lays_unicast hq

/-- The end of a chain leads into no op. -/
theorem lays_deliver (p : Params) (last : List Slot) :
    (deliver p last).Lays name R e fun _ _ => True := by
  refine (Lays.each fun s _ _ _ => lays_drain s).bind fun _ e₁ _ _ => ?_
  refine .ite (fun _ => (Lays.lift _).bind fun s _ _ _ => ?_) fun _ => .pure trivial
  exact .ite (fun _ => lays_linkOverEthernet s) fun _ => lays_linkOverHost s

section

variable (h : ∀ s ∈ consumer, e.Clear name s.first)

include h

/-- A pipe into the first inputs of slots that are clear. -/
theorem lays_into (inputs : List BufferId) (cores : List Core) {steps : List (List Slot)}
    (hsteps : ∀ step ∈ steps, ∀ s ∈ step, s ∈ consumer) :
    (pipe inputs (steps.map (·.map (·.first))) cores).Lays name R e fun _ _ => True := by
  refine (lays_pipe fun id => Or.inl fun out hout => ?_).mono fun _ _ _ _ => trivial
  rw [Pipe.allOutputs, List.mem_flatten] at hout
  obtain ⟨outs, houts, hout⟩ := hout
  obtain ⟨step, hstep, rfl⟩ := List.mem_map.1 houts
  obtain ⟨s, hs, rfl⟩ := List.mem_map.1 hout
  exact h s (hsteps step hstep s hs)

private theorem lays_connectLine (follows : Bool) (a : Axis) (n : UInt32) :
    (connectLine follows a producer consumer n).Lays name R e fun _ _ => True := by
  let members := consumer.filter (·.core.coord.along a == n)
  have hrest (src : Slot) {e' : Epoch} (h' : e.Extends e') :
      Lays (do pipe [src.output] [members.map (·.first)] [(← element members 0).core]) name R e'
        fun _ _ => True := by
    refine (Lays.lift _).bind fun t e'' h'' _ => ?_
    have hall : ∀ s ∈ consumer, e''.Clear name s.first :=
      fun s hs => (h s hs).under (h'.trans h'').toUnder
    have hmembers : ∀ step ∈ [members], ∀ s ∈ step, s ∈ consumer := by
      intro step hstep s hs
      rw [List.mem_singleton.1 hstep] at hs
      exact (List.mem_filter.1 hs).1
    have hinto := lays_into (R := R) hall [src.output] [t.core] hmembers
    exact hinto
  refine .ite (fun _ => ?_) fun _ => ?_
  · exact (Lays.lift _).bind fun src e₁ h₁ _ => hrest src h₁
  · exact (Lays.choose _).bind fun src e₁ h₁ _ => hrest src h₁

private theorem lays_connectCore (hs : s ∈ consumer) :
    (connectCore producer s).Lays name R e fun _ _ => True := by
  have hclear {e' : Epoch} (h' : e.Extends e') : e'.Clear name s.first := (h s hs).under h'.toUnder
  refine (Lays.draw _).bind fun n e₁ h₁ _ => ?_
  refine .ite (fun _ => ?_) fun _ => .ite (fun _ => ?_) fun _ => ?_
  · refine (Lays.draw _).bind fun i e₂ h₂ _ => ?_
    refine (Lays.lift _).bind fun one e₃ h₃ _ => (Lays.lift _).bind fun two e₄ h₄ _ => ?_
    exact lays_single _ s.core (hclear (((h₁.trans h₂).trans h₃).trans h₄))
  · refine (Lays.choose _).bind fun src e₂ h₂ _ => ?_
    refine (lays_relay _ _).bind fun relay e₃ h₃ hrelay => ?_
    refine (lays_unicast hrelay).bind fun _ e₄ h₄ _ => ?_
    exact lays_unicast (hclear (((h₁.trans h₂).trans h₃).trans h₄))
  · refine (Lays.choose _).bind fun src e₂ h₂ _ => ?_
    exact lays_unicast (hclear (h₁.trans h₂))

/-- Connecting to slots that are clear of the op lays no pipe into it. -/
theorem lays_connect (o : Planned) (op : Op) :
    (connect o op producer consumer).Lays name R e fun _ _ => True := by
  have hall {e' : Epoch} (h' : e.Extends e') : ∀ s ∈ consumer, e'.Clear name s.first :=
    fun s hs => (h s hs).under h'.toUnder
  refine .ite (fun _ => ?_) fun _ => ?_
  · refine (Lays.lift _).bind fun lines e₁ h₁ _ => ?_
    exact .each fun n _ e' h' => lays_connectLine (hall (h₁.trans h')) _ _ n
  · have hrest (scatter : Bool) {e' : Epoch} (h' : e.Extends e') :
        Lays (if scatter then do
            let src ← choose producer
            pipe [src.output] (consumer.map ([·.first])) (consumer.map (·.core))
          else consumer.forM (connectCore producer)) name R e' fun _ _ => True := by
      refine .ite (fun _ => ?_) fun _ => ?_
      · refine (Lays.choose _).bind fun src e₁ h₁ _ => ?_
        have hsteps : ∀ step ∈ consumer.map ([·]), ∀ s ∈ step, s ∈ consumer := by simp
        have hinto := lays_into (R := R) (hall (h'.trans h₁)) [src.output]
          (consumer.map (·.core)) hsteps
        simpa [List.map_map, Function.comp_def] using hinto
      · exact .each fun s hs e'' h'' => lays_connectCore (hall (h'.trans h'')) hs
    refine .ite (fun _ => ?_) fun _ => ?_
    · exact (Lays.draw _).bind fun scatter e₁ h₁ _ => hrest scatter h₁
    · exact (Lays.still fun _ => rfl).bind fun scatter e₁ h₁ _ => hrest scatter h₁

end

/-! ## Rows of an op that follows its predecessor -/

/-- The slots on a row. -/
def onRow (slots : List Slot) (n : UInt32) : List Slot :=
  slots.filter (·.core.coord.along .y == n)

/-- The pipe is the multicast from the slot of a producer on a row into the slots of a consumer on
it. -/
def IsRowWire (producer consumer : List Slot) (n : UInt32) (q : Pipe) : Prop :=
  ∃ id, ∃ src ∈ producer, ∃ t ∈ onRow consumer n, src.core.y = n ∧
    q = wire id [src] [onRow consumer n] [t.core]

/-- The pipe is the multicast of a row of the op. -/
def RowWireOf (op : Op) (producer consumer : List Slot) (q : Pipe) : Prop :=
  ∃ n ∈ opLines op .y, IsRowWire producer consumer n q

/-- The row has its multicast. -/
def RowFed (producer consumer : List Slot) (n : UInt32) (e : Epoch) : Prop :=
  ∃ q ∈ e.pipes.values, IsRowWire producer consumer n q

/-- A row that is fed stays so while more is added. -/
theorem RowFed.extends {n : UInt32} {e' : Epoch} (h : e.Extends e')
    (hfed : RowFed producer consumer n e) : RowFed producer consumer n e' :=
  hfed.imp fun q hq => ⟨h.pipe q hq.1, hq.2⟩

/-- Every row of an op has its multicast. -/
def RowsFed (op : Op) (producer consumer : List Slot) (e : Epoch) : Prop :=
  ∀ n ∈ opLines op .y, RowFed producer consumer n e

/-- The source of a row is the slot on it, if there is one. -/
theorem onRow_of_findIdx? {n : UInt32} (hn : ∃ s ∈ producer, s.core.y = n)
    (h : element producer ((producer.findIdx? (·.core.y == n)).getD 0) = .ok s) :
    s ∈ producer ∧ s.core.y = n := by
  obtain ⟨t, ht, hrow⟩ := hn
  cases hfind : producer.findIdx? (·.core.y == n) with
  | none => exact absurd hrow (by simpa using List.findIdx?_eq_none_iff.1 hfind t ht)
  | some i =>
    obtain ⟨hi, hon, _⟩ := List.findIdx?_eq_some_iff_getElem.1 hfind
    rw [hfind, Option.getD_some, element_eq_ok, List.getElem?_eq_getElem hi] at h
    cases h
    exact ⟨List.getElem_mem hi, by simpa using hon⟩

/-- An op that follows its predecessor is fed row by row. -/
theorem lays_connect_rows {d : Device} {o : Planned} {op : Op} (hop : op.OnMesh d)
    (hrows : ∀ n ∈ opLines op .y, ∃ s ∈ producer, s.core.y = n) (hfollows : o.follows = true)
    (hbroadcast : o.broadcast = ⟨true, false, false⟩) :
    (connect o op producer consumer).Lays name (RowWireOf op producer consumer) e
      fun _ => RowsFed op producer consumer := by
  have hrow : o.broadcast.row = true := by rw [hbroadcast]
  have hline (n : UInt32) (hn : n ∈ opLines op .y) (e' : Epoch) :
      (connectLine o.follows .y producer consumer n).Lays name (RowWireOf op producer consumer) e'
        fun _ => RowFed producer consumer n := by
    rw [connectLine, if_pos hfollows]
    refine (Lays.lift _).bind fun src e₁ h₁ hsrc => (Lays.lift _).bind fun t e₂ h₂ ht => ?_
    obtain ⟨hsrc, hon⟩ := onRow_of_findIdx? (hrows n hn) hsrc
    have hwire (id : PipeId) : IsRowWire producer consumer n
        (wire id [src] [onRow consumer n] [t.core]) :=
      ⟨id, src, hsrc, t, List.mem_of_getElem? (element_eq_ok.1 ht), hon, rfl⟩
    refine (lays_pipe fun id => Or.inr ⟨n, hn, hwire id⟩).mono fun _ _ _ hlaid => ?_
    obtain ⟨id, hid⟩ := hlaid
    exact ⟨_, hid, hwire id⟩
  rw [connect, hrow, Bool.true_or, if_pos rfl, connectLines, hrow]
  refine (Lays.lift _).bind fun lines e₁ _ hlines => ?_
  cases hlines.symm.trans (linesOf_eq hop .y)
  exact .forM RowFed.extends fun n hn e' _ => hline n hn e'

/-! ## The chain -/

variable {rest : List Link}

/-- The kinds of the buffers that data passes through on a core of an op. -/
structure Slot.Typed (s : Slot) (e : Epoch) : Prop where
  output : ∃ x, e.buffers.get? s.output = some x ∧ x.kind = .opOutput
  first : ∃ x, e.buffers.get? s.first = some x ∧ x.kind = .opInput

/-- The buffers of a slot keep their kinds while more is added. -/
theorem Slot.Typed.under {e' : Epoch} (hs : s.Typed e) (h : e.Under e') : s.Typed e' :=
  ⟨hs.output.imp fun _ hx => ⟨h.buffer hx.1, hx.2⟩, hs.first.imp fun _ hx => ⟨h.buffer hx.1, hx.2⟩⟩

/-- An op is added with slots of the right kinds, and no pipe. -/
theorem lays_addOp (op : Op) :
    (addOp op).Lays name R e fun slots e' => ∀ s ∈ slots, s.Typed e' := by
  have hedit : (edit (·.addOp op)).Lays name R e fun _ _ => True := by
    refine .edit fun e' hadd => ?_
    obtain ⟨hext, hpipes⟩ := Epoch.addOp_extends hadd
    exact ⟨hext, trivial, fun q hq => Or.inl (hpipes ▸ hq)⟩
  refine hedit.bind fun _ _ _ _ => (Lays.lift _).bind fun cores _ _ _ => ?_
  refine Lays.mapM (fun h hs => hs.under h.toUnder) fun core _ e _ => ?_
  refine (lays_l1Buffer _ _ _).bind fun output e₁ h₁ houtput => ?_
  refine (lays_l1Buffer _ _ _).bind fun first e₂ h₂ hfirst => ?_
  refine (lays_l1Buffer _ _ _).bind fun second e₃ h₃ hsecond => .pure ⟨?_, ?_⟩
  · exact houtput.imp fun _ hx => ⟨(h₂.trans h₃).buffer hx.1, hx.2.1⟩
  · exact hfirst.imp fun _ hx => ⟨h₃.buffer hx.1, hx.2.1⟩

/-- The slots of all ops hold buffers of the right kinds. -/
theorem lays_addOps (name : String) (R : Pipe → Prop) (ops : List (Planned × Op)) :
    (ops.mapM fun x => (do return (x, ← addOp x.2) : Build Link)).Lays name R e fun chain e' =>
      ∀ c ∈ chain, ∀ s ∈ c.2, s.Typed e' :=
  .mapM (fun h hc s hs => (hc s hs).under h.toUnder) fun x _ _ _ =>
    (lays_addOp x.2).bind fun _ _ _ hslots => .pure hslots

/-- Every op of the chain is connected to the one before it, in turn. -/
theorem lays_connectChain {D : Nat → Epoch → Prop} {previous : List Slot}
    (hD : ∀ {k e e'}, e.Extends e' → D k e → D k e')
    (hsecond : ∀ c ∈ rest, ∀ s ∈ c.2, e.Clear name s.second)
    (hconnect : ∀ (k : Nat) (c : Link) (before : List Slot), rest[k]? = some c →
      (previous :: rest.map (·.2))[k]? = some before →
      ∀ e', e.Extends e' → (connect c.1.1 c.1.2 before c.2).Lays name R e' fun _ => D k) :
    (connectChain previous rest).Lays name R e fun _ e' => ∀ k < rest.length, D k e' := by
  induction rest generalizing e previous D with
  | nil => exact .pure (by simp)
  | cons c rest ih =>
    rw [List.forall_mem_cons] at hsecond
    refine (Lays.each fun s hs e' h' => lays_feedSecond ((hsecond.1 s hs).under h'.toUnder)).bind
      fun _ e₁ h₁ _ => ?_
    refine (hconnect 0 c previous rfl rfl e₁ h₁).bind fun _ e₂ h₂ hfirst => ?_
    have h' := h₁.trans h₂
    have hrest := ih (D := fun k => D (k + 1)) hD
      (fun c hc s hs => (hsecond.2 c hc s hs).under h'.toUnder)
      fun k c before hc hbefore e₃ h₃ => hconnect (k + 1) c before hc hbefore e₃ (h'.trans h₃)
    refine hrest.mono fun _ e₃ h₃ hall => ?_
    rintro (_ | k) hk
    · exact hD h₃ hfirst
    · exact hall k (Nat.lt_of_succ_lt_succ hk)

/-- All ops of a chain are fed, and of those pipes the ones into op `j + 1` are its rows. -/
theorem lays_feedAll {d : Device} {c x y : Link} {j : Nat} {k : Build Unit}
    (hx : (c :: rest)[j]? = some x) (hy : (c :: rest)[j + 1]? = some y) (hop : y.1.2.OnMesh d)
    (hrows : ∀ n ∈ opLines y.1.2 .y, ∃ s ∈ x.2, s.core.y = n) (hfollows : y.1.1.follows = true)
    (hbroadcast : y.1.1.broadcast = ⟨true, false, false⟩)
    (hfirst : ∀ (i : Nat) (z : Link), (c :: rest)[i]? = some z → i ≠ j + 1 →
      ∀ s ∈ z.2, e.Clear name s.first)
    (hsecond : ∀ z ∈ c :: rest, ∀ s ∈ z.2, e.Clear name s.second)
    (hk : ∀ e', k.Lays name (RowWireOf y.1.2 x.2 y.2) e' fun _ _ => True) :
    Lays (do
      c.2.forM feedSecond
      c.2.forM feedFirst
      connectChain c.2 rest
      k) name (RowWireOf y.1.2 x.2 y.2) e fun _ => RowsFed y.1.2 x.2 y.2 := by
  rw [List.forall_mem_cons] at hsecond
  refine (Lays.each fun s hs e' h' => lays_feedSecond ((hsecond.1 s hs).under h'.toUnder)).bind
    fun _ e₁ h₁ _ => ?_
  refine (Lays.each fun s hs e' h' => lays_feedFirst
    ((hfirst 0 c rfl (Nat.succ_ne_zero j).symm s hs).under (h₁.trans h').toUnder)).bind
    fun _ e₂ h₂ _ => ?_
  have h' := h₁.trans h₂
  have hchain : (connectChain c.2 rest).Lays name (RowWireOf y.1.2 x.2 y.2) e₂
      fun _ e' => ∀ i < rest.length, i = j → RowsFed y.1.2 x.2 y.2 e' := by
    refine lays_connectChain (fun h hfed hi n hn => (hfed hi n hn).extends h)
      (fun z hz s hs => (hsecond.2 z hz s hs).under h'.toUnder)
      fun i z before hz hbefore e₃ h₃ => ?_
    by_cases hi : i = j
    · subst hi
      obtain rfl : z = y := Option.some.inj (hz.symm.trans hy)
      obtain rfl : before = x.2 := by
        rw [← List.map_cons, List.getElem?_map, hx] at hbefore
        exact (Option.some.inj hbefore).symm
      exact (lays_connect_rows hop hrows hfollows hbroadcast).mono fun _ _ _ hfed _ => hfed
    · have hclear : ∀ s ∈ z.2, e₃.Clear name s.first := fun s hs =>
        (hfirst (i + 1) z hz (by omega) s hs).under (h'.trans h₃).toUnder
      exact (lays_connect hclear z.1.1 z.1.2).mono fun _ _ _ _ hij => absurd hij hi
  refine hchain.bind fun _ e₃ _ hfed => (hk e₃).mono fun _ e₄ h₄ _ n hn => ?_
  have hj : j < rest.length := Nat.lt_of_succ_lt_succ (List.getElem?_eq_some_iff.1 hy).1
  exact (hfed j hj rfl n hn).extends h₄

/-- In a chain that was built, the pipes into an op that follows its predecessor are the multicasts
of its rows, and every row has one. -/
theorem exists_rowWires {p : Params} {ops : List (Planned × Op)} {b b' : Builder} {budget : Budget}
    {x y : Planned × Op} {j : Nat} (hlayout : Layout p ops)
    (hb : b.Sound (perCore 3 0 0 (chainCores ops) + budget)) (hdevice : b.epoch.device = p.device)
    (hops : b.epoch.ops.toList = []) (hpipes : b.epoch.pipes.toList = [])
    (hrun : (buildChain p ops).run.run b = (.ok (), b'))
    (hx : ops[j]? = some x) (hy : ops[j + 1]? = some y) (hcells : x.2.cells .y = y.2.cells .y)
    (hfollows : y.1.follows = true) (hbroadcast : y.1.broadcast = ⟨true, false, false⟩) :
    ∃ sources slots, SlotsOf sources b'.epoch x.2 ∧ (∀ s ∈ sources, s.Typed b'.epoch) ∧
      SlotsOf slots b'.epoch y.2 ∧ (∀ s ∈ slots, s.Typed b'.epoch) ∧
      (∀ q ∈ b'.epoch.pipes.values,
        b'.epoch.Avoids y.2.name q ∨ RowWireOf y.2 sources slots q) ∧
      RowsFed y.2 sources slots b'.epoch := by
  have hkeys : b.epoch.ops.keys = [] := by simp [Table.keys, hops]
  have hvalues : b.epoch.pipes.values = [] := by simp [Table.values, hpipes]
  obtain ⟨chain, b₁, hadd, rfl, hstands, _⟩ :=
    run_addOps hb (by simp [hkeys]) hlayout.names fun x hx =>
      ⟨hdevice.symm ▸ (hlayout.places x hx).onMesh, (hlayout.places x hx).name⟩
  obtain ⟨x, hxc, rfl⟩ := Option.map_eq_some_iff.1 (List.getElem?_map ▸ hx)
  obtain ⟨y, hyc, rfl⟩ := Option.map_eq_some_iff.1 (List.getElem?_map ▸ hy)
  have hsources := hstands x (List.mem_of_getElem? hxc)
  have hslots := hstands y (List.mem_of_getElem? hyc)
  have hrows : ∀ n ∈ opLines y.1.2 .y, ∃ s ∈ x.2, s.core.y = n := by
    intro n hn
    have hmem := (mem_opLines hslots.onMesh).1 hn
    obtain ⟨s, hs, hrow⟩ := hsources.exists_on (hcells ▸ hmem)
    exact ⟨s, hs, UInt32.toNat_inj.1 hrow⟩
  obtain ⟨_, htyped, hnone⟩ :=
    lays_addOps y.1.2.name (RowWireOf y.1.2 x.2 y.2) _ b chain b₁ rfl hadd
  have hfirst : ∀ (i : Nat) (z : Link), chain[i]? = some z → i ≠ j + 1 →
      ∀ s ∈ z.2, b₁.epoch.Clear y.1.2.name s.first := by
    intro i z hz hi s hs
    refine ((hstands z (List.mem_of_getElem? hz)).slot s hs).clear_first ?_
    exact hlayout.name_ne (by rw [List.getElem?_map, hz]; rfl) hy hi
  have hsecond : ∀ z ∈ chain, ∀ s ∈ z.2, b₁.epoch.Clear y.1.2.name s.second :=
    fun z hz s hs => ((hstands z hz).slot s hs).clear_second
  rw [buildChain, run_bind_ok hadd] at hrun
  cases chain with
  | nil => cases hxc
  | cons c rest =>
    rw [run_bind_ok (run_lift (element_eq_ok.2 rfl) b₁)] at hrun
    obtain ⟨hext, hfed, hlaid⟩ := lays_feedAll hxc hyc hslots.onMesh hrows hfollows hbroadcast
      hfirst hsecond (fun _ => (Lays.lift _).bind fun _ _ _ _ => lays_deliver p _) b₁ () b' rfl hrun
    refine ⟨x.2, y.2, hsources.under hext.toUnder, ?_, hslots.under hext.toUnder, ?_, ?_, hfed⟩
    · exact fun s hs => (htyped _ (List.mem_of_getElem? hxc) s hs).under hext.toUnder
    · exact fun s hs => (htyped _ (List.mem_of_getElem? hyc) s hs).under hext.toUnder
    · intro q hq
      refine (hlaid q hq).elim (fun hold => ?_) id
      rcases hnone q hold with hmem | havoids | hrow
      · rw [hvalues] at hmem
        cases hmem
      · exact Or.inl (havoids.under hext.toUnder)
      · exact Or.inr hrow

end Synthesis

end TorusRouting
