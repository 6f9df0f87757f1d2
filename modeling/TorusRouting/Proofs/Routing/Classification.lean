import TorusRouting.PipeClass
import TorusRouting.Proofs.Routing.Validity

/-!
# How pipes are classified

A class is built from the buffers at the two ends of a pipe, in one of four ways. They are listed
once, with everything that holds where they apply; facts about classes are read off that list. A
pipe of a valid epoch fails to be classified only for its owners, or for a multicast that its
consumer did not declare.
-/

namespace TorusRouting

/-- Failures of classification that validation does not rule out. -/
inductive ClassFlaw : Failure → Prop
  | owner (b : BufferId) : ClassFlaw (.error (.missingOwner b))
  | op (name : String) : ClassFlaw (.error (.missingOp name))
  | multicast (op : String) (input : UInt64) (flaw : MulticastFlaw) :
    ClassFlaw (.error (.inconsistentMulticast op input flaw))

namespace Epoch

variable {e : Epoch} {oracle : Oracle} {p : Pipe} {c base : PipeClass} {src dst : Buffer}
  {producer : Option Op} {consumer : Op} {input : UInt64}

/-! ## The stages of classification -/

/-- The buffers that stand for the two sides of a pipe. -/
structure Ends (e : Epoch) (p : Pipe) (src dst : Buffer) : Prop where
  source : ∃ id, p.firstInput? = some id ∧ e.buffers.get? id = some src
  dest : ∃ id, p.firstOutput? = some id ∧ e.buffers.get? id = some dst

/-- A pipe has one first buffer on either side. -/
theorem Ends.unique {src' dst' : Buffer} (h : e.Ends p src dst) (h' : e.Ends p src' dst') :
    src = src' ∧ dst = dst' := by
  obtain ⟨⟨i, hi, hsrc⟩, o, ho, hdst⟩ := h
  obtain ⟨⟨i', hi', hsrc'⟩, o', ho', hdst'⟩ := h'
  cases hi.symm.trans hi'
  cases ho.symm.trans ho'
  exact ⟨Option.some.inj (hsrc.symm.trans hsrc'), Option.some.inj (hdst.symm.trans hdst')⟩

/-- What the two buffers alone say. -/
def endsClass (e : Epoch) (p : Pipe) (src dst : Buffer) : PipeClass where
  source := src.endpoint e.device
  dest := dst.endpoint e.device
  prologQueue := src.isPrologQueue
  timesteps := p.timesteps

/-- What is known once the producer is. -/
def sourceClass (e : Epoch) (p : Pipe) (src dst : Buffer) (producer : Option Op) : PipeClass :=
  { e.endsClass p src dst with
    pcie := src.endpoint e.device == .queue && src.inHostMemory
    untilizes := producer.any (·.untilizes)
    sourceOp := producer.map (·.name) }

/-- What a pipe asks of the oracle: the declared broadcast, as far as the pipe fans out. -/
def asks (p : Pipe) (consumer : Op) (input : UInt64) : Broadcast :=
  let declared := consumer.broadcast input
  let fansOut : Bool := 1 < (p.outputsAt 0).length
  ⟨declared.row && fansOut, declared.col && fansOut, declared.noc1⟩

/-- The oracle is asked about pipes from op to op, but not over PCIe. -/
def consult (e : Epoch) (oracle : Oracle) (producer : Option Op) (consumer : Op) (pcie : Bool)
    (ask : Broadcast) : Outcome (Option Network) :=
  match producer with
  | some op => if pcie then .ok none else oracle e.device op consumer ask
  | none => .ok none

/-- The class of a pipe into an op, from the answer of the oracle. -/
def feedClass (e : Epoch) (p : Pipe) (src dst : Buffer) (base : PipeClass) (consumer : Op)
    (input : UInt64) (sameCore : Bool) (answer : Option Network) : PipeClass :=
  let ask := asks p consumer input
  let declared := consumer.broadcast input
  let network := if p.timesteps == 1 && sameCore then answer else none
  { base with
    pcie := base.pcie || e.crossesPcie src dst
    input
    row := ask.row
    col := ask.col
    noc1 := match network with
      | some n => n == .noc1
      | none => declared.noc1 ||
          (!declared.row && !declared.col && (consumer.transposed ^^ input % 2 == 1))
    destOp := some consumer.name
    direct := network.isSome
    loopback := ((ask.row || ask.col) && network.isNone) || p.timesteps != 1 || !sameCore }

/-- The timesteps of the pipe agree in being multicast, and the input declares it if they are. -/
structure Declared (p : Pipe) (consumer : Op) (input : UInt64) : Prop where
  declared : 1 < (p.outputsAt 0).length →
    (consumer.broadcast input).row = true ∨ (consumer.broadcast input).col = true
  even : ∀ o ∈ p.outputs, 1 < o.length ↔ 1 < (p.outputsAt 0).length

/-- Into an op, a declared pipe is classified by the answer of the oracle. -/
theorem classifyIntoOp_declared (hc : e.consumerOf dst = .ok (consumer, input))
    (h : Declared p consumer input) :
    e.classifyIntoOp oracle p producer src dst base = (do
      let sameCore ← e.inputsShareCore p
      let answer ← e.consult oracle producer consumer (base.pcie || e.crossesPcie src dst)
        (asks p consumer input)
      return e.feedClass p src dst base consumer input sameCore answer) := by
  have hdeclared : ¬ (decide (1 < (p.outputsAt 0).length) &&
      !(consumer.broadcast input).row && !(consumer.broadcast input).col) = true := by
    intro hflaw
    simp only [Bool.and_eq_true, decide_eq_true_eq, Bool.not_eq_true'] at hflaw
    have hor := h.declared hflaw.1.1
    simp only [hflaw.1.2, hflaw.2, Bool.false_eq_true, or_self] at hor
  have heven : ¬ (p.outputs.any fun o =>
      decide (1 < o.length) != decide (1 < (p.outputsAt 0).length)) = true := by
    intro hflaw
    obtain ⟨o, ho, hne⟩ := List.any_eq_true.1 hflaw
    rw [bne_iff_ne, ne_eq, decide_eq_decide] at hne
    exact hne (h.even o ho)
  rw [classifyIntoOp, hc]
  change (if _ then _ else _) = _
  rw [if_neg hdeclared, if_neg heven]
  cases e.inputsShareCore p with
  | error f => rfl
  | ok sameCore =>
    cases producer with
    | none => rfl
    | some op =>
      simp only [consult]
      change (if _ then _ else _) = _
      split <;> rfl

/-- An undeclared multicast into an op is refused. -/
theorem classifyIntoOp_undeclared (hc : e.consumerOf dst = .ok (consumer, input))
    (h : ¬ Declared p consumer input) (oracle : Oracle) (producer : Option Op) (src : Buffer)
    (base : PipeClass) : ∃ flaw,
    e.classifyIntoOp oracle p producer src dst base =
      reject (.inconsistentMulticast consumer.name input flaw) := by
  rw [classifyIntoOp, hc]
  dsimp only [bind, Except.bind]
  split
  · exact ⟨.undeclared, rfl⟩
  · rename_i hdeclared
    split
    · exact ⟨.uneven, rfl⟩
    · rename_i heven
      refine absurd ⟨?_, ?_⟩ h
      · intro hfans
        by_contra hnone
        simp only [not_or, Bool.not_eq_true] at hnone
        simp [hfans, hnone.1, hnone.2] at hdeclared
      · intro o ho
        by_contra hne
        refine heven (List.any_eq_true.2 ⟨o, ho, ?_⟩)
        rw [bne_iff_ne, ne_eq, decide_eq_decide]
        exact hne

/-! ## Owners -/

/-- The consumer is the op that owns the input buffer. -/
theorem consumerOf_eq_ok : e.consumerOf dst = .ok (consumer, input) ↔
    ∃ key, dst.owner = some (.consumer key input) ∧ e.ops.get? key = some consumer := by
  unfold consumerOf
  split
  · rename_i key i howner
    rw [bind_eq_ok]
    constructor
    · rintro ⟨op, hop, h⟩
      cases pure_eq_ok.1 h
      exact ⟨key, howner, op_eq_ok.1 hop⟩
    · rintro ⟨key', howner', hop⟩
      cases howner.symm.trans howner'
      exact ⟨consumer, op_eq_ok.2 hop, rfl⟩
  · rename_i hnone
    constructor
    · intro h
      cases h
    · rintro ⟨key, howner, _⟩
      exact absurd howner (hnone key input)

private theorem consumerOf_flaw {f : Failure} (h : e.consumerOf dst = .error f) : ClassFlaw f := by
  unfold consumerOf at h
  split at h
  · rcases bind_eq_error.1 h with hop | ⟨_, _, h⟩
    · rw [op_eq_error hop]
      exact .op _
    · cases h
  · cases h
    exact .owner _

/-- A source that is an op has a stored producer, and no other source has one. -/
theorem producerOf_cases (h : e.producerOf src = .ok producer) :
    (src.endpoint e.device = .op ∧ ∃ o op, src.owner = some o ∧ e.ops.get? o.op = some op ∧
      producer = some op) ∨ src.endpoint e.device ≠ .op ∧ producer = none := by
  unfold producerOf at h
  split at h
  · rename_i hop
    split at h
    · rename_i o howner
      obtain ⟨op, hget, h⟩ := bind_eq_ok.1 h
      exact Or.inl ⟨hop, o, op, howner, op_eq_ok.1 hget, (pure_eq_ok.1 h).symm⟩
    · cases h
  · rename_i hop
    cases h
    exact Or.inr ⟨hop, rfl⟩

private theorem producerOf_flaw {f : Failure} (h : e.producerOf src = .error f) : ClassFlaw f := by
  unfold producerOf at h
  split at h
  · split at h
    · rcases bind_eq_error.1 h with hop | ⟨_, _, h⟩
      · rw [op_eq_error hop]
        exact .op _
      · cases h
    · cases h
      exact .owner _
  · cases h

/-! ## The four ways -/

/-- The class of a pipe between two buffers. -/
inductive Classifies (e : Epoch) (oracle : Oracle) (p : Pipe) (src dst : Buffer) : PipeClass → Prop
  | ethernet (h : e.isEthernetPipe p src dst = true) :
    Classifies e oracle p src dst { e.endsClass p src dst with ethernet := true }
  | intoQueue (h : e.isEthernetPipe p src dst = false) {producer : Option Op}
    (hproducer : e.producerOf src = .ok producer) (hdest : dst.endpoint e.device = .queue) :
    Classifies e oracle p src dst { e.sourceClass p src dst producer with
      pcie := (e.sourceClass p src dst producer).pcie || dst.inHostMemory || e.crossesPcie src dst }
  | intoOp (h : e.isEthernetPipe p src dst = false) {producer : Option Op}
    (hproducer : e.producerOf src = .ok producer) (hdest : dst.endpoint e.device = .op)
    {consumer : Op} {input : UInt64} (hconsumer : e.consumerOf dst = .ok (consumer, input))
    (hdeclared : Declared p consumer input) {sameCore : Bool}
    (hsame : e.inputsShareCore p = .ok sameCore) {answer : Option Network}
    (hanswer : e.consult oracle producer consumer
      ((e.sourceClass p src dst producer).pcie || e.crossesPcie src dst)
      (asks p consumer input) = .ok answer) :
    Classifies e oracle p src dst
      (e.feedClass p src dst (e.sourceClass p src dst producer) consumer input sameCore answer)
  | intoStage (h : e.isEthernetPipe p src dst = false) {producer : Option Op}
    (hproducer : e.producerOf src = .ok producer)
    (hdest : dst.endpoint e.device = .relay ∨ dst.endpoint e.device = .prologInter) :
    Classifies e oracle p src dst (e.sourceClass p src dst producer)

/-- What is known once the destination is, too. -/
def destClass (e : Epoch) (oracle : Oracle) (p : Pipe) (src dst : Buffer) (producer : Option Op) :
    Outcome PipeClass :=
  let base := e.sourceClass p src dst producer
  match dst.endpoint e.device with
  | .queue => .ok { base with pcie := base.pcie || dst.inHostMemory || e.crossesPcie src dst }
  | .op => e.classifyIntoOp oracle p producer src dst base
  | .relay | .prologInter => .ok base

/-- Classification of a pipe with stored ends, stage by stage. -/
theorem classify_eq (h : e.Ends p src dst) (hidle : p.hasIdleStep = false) :
    e.classify oracle p =
      if e.isEthernetPipe p src dst then .ok { e.endsClass p src dst with ethernet := true }
      else e.producerOf src >>= e.destClass oracle p src dst := by
  obtain ⟨⟨i, hi, hsrc⟩, ⟨o, ho, hdst⟩⟩ := h
  rw [classify, hi, ho]
  dsimp only
  rw [hidle, if_neg Bool.false_ne_true, pipeBuffer_eq_ok.2 hsrc, pipeBuffer_eq_ok.2 hdst]
  rfl

/-- A classified pipe has stored ends and outputs in every timestep. -/
theorem ends_of_classify (h : e.classify oracle p = .ok c) :
    ∃ src dst, e.Ends p src dst ∧ p.hasIdleStep = false := by
  unfold classify at h
  split at h
  · rename_i i hi
    split at h
    · rename_i o ho
      split at h
      · cases h
      · rename_i hidle
        obtain ⟨src, hsrc, h⟩ := bind_eq_ok.1 h
        obtain ⟨dst, hdst, _⟩ := bind_eq_ok.1 h
        refine ⟨src, dst, ⟨⟨i, hi, pipeBuffer_eq_ok.1 hsrc⟩, ⟨o, ho, pipeBuffer_eq_ok.1 hdst⟩⟩, ?_⟩
        exact Bool.eq_false_iff.2 hidle
    · cases h
  · cases h

/-- A class comes about in one of the four ways. -/
theorem classifies_of_classify (h : e.classify oracle p = .ok c) :
    ∃ src dst, e.Ends p src dst ∧ p.hasIdleStep = false ∧ e.Classifies oracle p src dst c := by
  obtain ⟨src, dst, hends, hidle⟩ := ends_of_classify h
  refine ⟨src, dst, hends, hidle, ?_⟩
  rw [classify_eq hends hidle] at h
  split at h
  · rename_i heth
    cases h
    exact .ethernet heth
  · rename_i heth
    have heth := Bool.eq_false_iff.2 heth
    obtain ⟨producer, hproducer, h⟩ := bind_eq_ok.1 h
    unfold destClass at h
    split at h
    · rename_i hdest
      cases h
      exact .intoQueue heth hproducer hdest
    · rename_i hdest
      cases hc : e.consumerOf dst with
      | error f =>
        rw [classifyIntoOp, hc] at h
        cases h
      | ok feed =>
        obtain ⟨consumer, input⟩ := feed
        by_cases hdeclared : Declared p consumer input
        · rw [classifyIntoOp_declared hc hdeclared] at h
          obtain ⟨sameCore, hsame, h⟩ := bind_eq_ok.1 h
          obtain ⟨answer, hanswer, h⟩ := bind_eq_ok.1 h
          cases h
          exact .intoOp heth hproducer hdest hc hdeclared hsame hanswer
        · obtain ⟨flaw, hflaw⟩ := classifyIntoOp_undeclared hc hdeclared oracle producer src
            (e.sourceClass p src dst producer)
          rw [hflaw] at h
          cases h
    · rename_i hdest
      cases h
      exact .intoStage heth hproducer (Or.inl hdest)
    · rename_i hdest
      cases h
      exact .intoStage heth hproducer (Or.inr hdest)

/-! ## What a class says -/

/-- A class names the kinds of both ends. -/
theorem Classifies.ends (h : e.Classifies oracle p src dst c) :
    c.source = src.endpoint e.device ∧ c.dest = dst.endpoint e.device := by
  cases h <;> exact ⟨rfl, rfl⟩

/-- Only a pipe into an op over the on-chip networks names a destination op. -/
theorem Classifies.of_destOp (h : e.Classifies oracle p src dst c) {op : String}
    (hop : c.destOp = some op) : c.ethernet = false ∧ c.dest = .op := by
  cases h with
  | intoOp _ _ hdest => exact ⟨rfl, hdest⟩
  | ethernet | intoQueue | intoStage => cases hop

/-- A pipe that names a destination op ends in a buffer for an input of this op. -/
theorem Classifies.receiver (h : e.Classifies oracle p src dst c) {op : String}
    (hop : c.destOp = some op) : ∃ consumer, e.consumerOf dst = .ok (consumer, c.input) ∧
      consumer.name = op := by
  cases h with
  | @intoOp _ _ _ _ consumer _ hconsumer => exact ⟨consumer, hconsumer, Option.some.inj hop⟩
  | ethernet | intoQueue | intoStage => cases hop

/-- A declared pipe is a multicast if it writes several buffers at once. -/
theorem Declared.isMulticast (h : Declared p consumer input) :
    p.isMulticast = decide (1 < (p.outputsAt 0).length) := by
  rw [Pipe.isMulticast, Bool.eq_iff_iff, List.any_eq_true, decide_eq_true_eq]
  constructor
  · rintro ⟨o, ho, hfans⟩
    exact (h.even o ho).1 (of_decide_eq_true hfans)
  · intro hfans
    cases houts : p.outputs with
    | nil => simp [Pipe.outputsAt, houts] at hfans
    | cons o os =>
      refine ⟨o, List.mem_cons_self .., decide_eq_true ?_⟩
      simpa [Pipe.outputsAt, houts] using hfans

section feedClass

variable {sameCore : Bool} {answer : Option Network}

/-- A declared pipe is classed as a multicast when it is one. -/
theorem feedClass_multicast (h : Declared p consumer input) :
    (e.feedClass p src dst base consumer input sameCore answer).multicast = p.isMulticast := by
  rw [h.isMulticast]
  change ((consumer.broadcast input).row && _ || (consumer.broadcast input).col && _) = _
  by_cases hfans : 1 < (p.outputsAt 0).length
  · simpa [hfans] using h.declared hfans
  · simp [hfans]

/-- A direct multicast follows the answer, and its data is not sent again. -/
theorem feedClass_direct
    (h : (e.feedClass p src dst base consumer input sameCore answer).direct = true) :
    (e.feedClass p src dst base consumer input sameCore answer).loopback = false ∧
      answer = some (.noc1If (e.feedClass p src dst base consumer input sameCore answer).noc1) := by
  simp only [feedClass] at h ⊢
  split at h
  · rename_i hsingle
    obtain ⟨n, rfl⟩ := Option.isSome_iff_exists.1 h
    rw [if_pos hsingle]
    simp only [Bool.and_eq_true, beq_iff_eq] at hsingle
    refine ⟨by simp [hsingle], ?_⟩
    cases n <;> rfl
  · cases h

/-- Anything but a direct multicast follows what the consumer declared. -/
theorem feedClass_preferred
    (h : (e.feedClass p src dst base consumer input sameCore answer).direct = false) :
    (e.feedClass p src dst base consumer input sameCore answer).noc1 =
      ((consumer.broadcast input).noc1 || (!(consumer.broadcast input).row &&
        !(consumer.broadcast input).col && (consumer.transposed ^^ input % 2 == 1))) := by
  simp only [feedClass] at h ⊢
  rw [Option.isSome_eq_false_iff, Option.isNone_iff_eq_none] at h
  rw [h]

end feedClass

/-- Unless it stays open, the outcome of a consultation is what the oracle says of the producer. -/
theorem consult_asked {pcie : Bool} {ask : Broadcast} {answer : Outcome (Option Network)}
    (h : e.consult oracle producer consumer pcie ask = answer) (hopen : answer ≠ .ok none) :
    ∃ op, producer = some op ∧ oracle e.device op consumer ask = answer := by
  unfold consult at h
  split at h
  · rename_i op
    split at h
    · exact absurd h.symm hopen
    · exact ⟨op, rfl, h⟩
  · exact absurd h.symm hopen

/-- What the class of a pipe into an op says of the delivery. -/
structure Delivers (e : Epoch) (oracle : Oracle) (p : Pipe) (src dst : Buffer) (c : PipeClass)
    (producer : Option Op) (consumer : Op) (input : UInt64) : Prop where
  sender : e.producerOf src = .ok producer
  receiver : e.consumerOf dst = .ok (consumer, input)
  sourceOp : c.sourceOp = producer.map (·.name)
  destOp : c.destOp = some consumer.name
  even : ∀ o ∈ p.outputs, 1 < o.length ↔ p.isMulticast = true
  multicast : c.multicast = p.isMulticast
  /-- A direct multicast is no loopback and leaves on the network the oracle answered with. -/
  direct : c.direct = true → c.loopback = false ∧ ∃ owner op, src.owner = some owner ∧
    e.ops.get? owner.op = some op ∧
    oracle e.device op consumer (asks p consumer input) = .ok (some (.noc1If c.noc1))
  /-- Anything else leaves on the network that the consumer prefers for the input. -/
  preferred : c.direct = false → c.noc1 = ((consumer.broadcast input).noc1 ||
    (!(consumer.broadcast input).row && !(consumer.broadcast input).col &&
      (consumer.transposed ^^ input % 2 == 1)))

/-- A class of a pipe into an op says all this. -/
theorem Classifies.delivers (h : e.Classifies oracle p src dst c) (he : c.ethernet = false)
    (hd : c.dest = .op) :
    ∃ producer consumer input, e.Delivers oracle p src dst c producer consumer input := by
  cases h with
  | ethernet => cases he
  | intoQueue _ _ hdest => cases hd.symm.trans hdest
  | intoStage _ _ hdest =>
    rcases hdest with hdest | hdest
    · cases hd.symm.trans hdest
    · cases hd.symm.trans hdest
  | @intoOp _ producer hproducer _ consumer input hconsumer hdeclared same _ answer hanswer =>
    refine ⟨producer, consumer, input, hproducer, hconsumer, rfl, rfl, ?_,
      feedClass_multicast hdeclared, ?_, feedClass_preferred⟩
    · intro o ho
      rw [hdeclared.even o ho, hdeclared.isMulticast, decide_eq_true_eq]
    · intro hdirect
      obtain ⟨hloopback, heq⟩ := feedClass_direct hdirect
      obtain ⟨op, rfl, horacle⟩ := consult_asked (hanswer.trans (congrArg _ heq)) nofun
      rcases producerOf_cases hproducer with ⟨_, owner, op', howner, hget, heq⟩ | ⟨_, heq⟩
      · cases heq
        exact ⟨hloopback, owner, op, howner, hget, horacle⟩
      · cases heq

/-- Only a pipe into an op over the on-chip networks is sent directly. -/
theorem Classifies.of_direct (h : e.Classifies oracle p src dst c) (hdirect : c.direct = true) :
    c.ethernet = false ∧ c.dest = .op := by
  cases h with
  | intoOp _ _ hdest => exact ⟨rfl, hdest⟩
  | ethernet | intoQueue | intoStage => cases hdirect

/-! ## Failures on a valid epoch -/

/-- For a connected pipe it is known whether its inputs share a core. -/
theorem exists_inputsShareCore (h : p.Connected e) : ∃ same, e.inputsShareCore p = .ok same := by
  have hon (core : Core) (ids : List BufferId)
      (hids : ∀ id ∈ ids, ∃ b, e.buffers.get? id = some b) :
      ∃ same, e.inputsOn p core ids = .ok same := by
    induction ids with
    | nil => exact ⟨true, rfl⟩
    | cons id ids ih =>
      rw [List.forall_mem_cons] at hids
      obtain ⟨b, hb⟩ := hids.1
      rw [inputsOn, pipeBuffer_eq_ok.2 hb]
      change ∃ same, (if b.core = core then _ else _) = _
      split
      · exact ih hids.2
      · exact ⟨false, rfl⟩
  have hids := h.input
  unfold inputsShareCore
  split
  · exact ⟨true, rfl⟩
  · rename_i id ids hinputs
    rw [hinputs, List.forall_mem_cons] at hids
    obtain ⟨b, hb⟩ := hids.1
    rw [pipeBuffer_eq_ok.2 hb]
    exact hon b.core ids hids.2

/-- Into an op, a connected pipe is refused for its owner or its multicast, unless the oracle
fails. -/
theorem classifyIntoOp_flaw (h : p.Connected e) {f : Failure}
    (hf : e.classifyIntoOp oracle p producer src dst base = .error f) :
    ClassFlaw f ∨ ∃ op, producer = some op ∧ ∃ key consumer, e.ops.get? key = some consumer ∧
      ∃ ask, oracle e.device op consumer ask = .error f := by
  cases hc : e.consumerOf dst with
  | error f' =>
    rw [classifyIntoOp, hc] at hf
    cases hf
    exact Or.inl (consumerOf_flaw hc)
  | ok feed =>
    obtain ⟨consumer, input⟩ := feed
    by_cases hdeclared : Declared p consumer input
    · obtain ⟨same, hsame⟩ := exists_inputsShareCore h
      rw [classifyIntoOp_declared hc hdeclared, hsame] at hf
      have hanswer := (bind_eq_error.1 hf).resolve_left nofun
      obtain ⟨_, _, hanswer⟩ := hanswer
      rcases bind_eq_error.1 hanswer with hanswer | ⟨_, _, hdone⟩
      · obtain ⟨op, hop, hfail⟩ := consult_asked hanswer nofun
        obtain ⟨key, _, hconsumer⟩ := consumerOf_eq_ok.1 hc
        exact Or.inr ⟨op, hop, key, consumer, hconsumer, _, hfail⟩
      · cases hdone
    · obtain ⟨flaw, hflaw⟩ := classifyIntoOp_undeclared hc hdeclared oracle producer src base
      rw [hflaw] at hf
      cases hf
      exact Or.inl (.multicast ..)

/-- A connected pipe is refused for its owners or its multicast, unless the oracle itself fails on
two ops of the epoch. -/
theorem classify_flaw (h : p.Connected e) {f : Failure} (hf : e.classify oracle p = .error f) :
    ClassFlaw f ∨ ∃ a ∈ e.ops.values, ∃ b ∈ e.ops.values, ∃ ask,
      oracle e.device a b ask = .error f := by
  obtain ⟨⟨i, src, hi, hsrc⟩, ⟨o, dst, ho, hdst⟩⟩ := h.exists_first
  rw [classify_eq ⟨⟨i, hi, hsrc⟩, ⟨o, ho, hdst⟩⟩ h.hasIdleStep] at hf
  split at hf
  · cases hf
  · rcases bind_eq_error.1 hf with hproducer | ⟨producer, hproducer, hf⟩
    · exact Or.inl (producerOf_flaw hproducer)
    · unfold destClass at hf
      split at hf
      · cases hf
      · rcases classifyIntoOp_flaw h hf with hflaw | ⟨op, rfl, key, consumer, hget, ask, hfail⟩
        · exact Or.inl hflaw
        · rcases producerOf_cases hproducer with ⟨_, _, op', _, hop, heq⟩ | ⟨_, heq⟩
          · cases heq
            exact Or.inr ⟨op, Table.mem_values_of_get? hop, consumer,
              Table.mem_values_of_get? hget, ask, hfail⟩
          · cases heq
      · cases hf
      · cases hf

end Epoch

end TorusRouting
