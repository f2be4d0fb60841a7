import Msp430.Instance.Mailbox
import Msp430.Proofs.Debugger

/-!
# Turns of an actor

A turn carries out the request that is due, or is a turn of free running, or does nothing. It brings no requests of its
own.
-/

namespace Msp430

open Access

/-- A look at memory changes nothing, whether it succeeds or fails. -/
theorem Request.keeps_readMemory {I : Bench → Prop} (address length : UInt16) :
    Keeps I (readMemory address length).serve := by
  refine keeps_bind keeps_get fun b => ?_
  split
  · exact keeps_pure _
  · exact keeps_throw _

/-- A load of an image changes the memory, the key of the image and the metrics, and nothing else. -/
theorem Bench.loadImage_keeps {I : Bench → Prop} (loaded : ∀ b memory, I b → I { b with cpu := { b.cpu with memory } })
    (named : ∀ b image, I b → I ({ b with cpu := { b.cpu with image } }.mapMetrics (·.recordImageLoad b.cpu.name)))
    (key : String) : Keeps I (loadImage key) := by
  have found : Keeps I (submit (KeyValue.get key)) := by
    intro b h
    have same : endState (KeyValue.get key b.shared.store) = b.shared.store := by
      refine keeps_bind (I := (· = b.shared.store)) keeps_get (fun store => ?_) _ rfl
      split
      · exact keeps_pure _
      · exact keeps_pure _
      · exact keeps_throw _
    unfold submit
    cases job : KeyValue.get key b.shared.store <;> rw [job] at same <;> cases same <;> exact h
  have load (image : Bytes) : Keeps I (loadBytes image) := by
    intro b h
    unfold loadBytes
    cases (Image.load image : EStateM Image.Error Memory Nat) b.cpu.memory <;> exact loaded b _ h
  refine keeps_bind found fun image? => ?_
  cases image? with
  | none => exact keeps_throw _
  | some image =>
    exact keeps_bind (load image) fun written => keeps_bind (keeps_modify fun b h => named b key h) fun _ =>
      keeps_pure written

theorem Bench.liftFault_keeps {I : Bench → Prop} {x : EStateM Fault Bench α} (h : Keeps I x) : Keeps I (liftFault x) := by
  intro b holds
  have after := h b holds
  unfold liftFault
  cases ended : x b <;> rw [ended] at after <;> exact after

/-- The request changes the breakpoints. -/
def Request.Edits : Request → Prop
  | setBreakpoint _ _ | clearBreakpoint _ => True
  | _ => False

/-- What a request keeps, told from the parts of the instance that requests change. -/
theorem Request.serve_keeps {I : Bench → Prop} {r : Request}
    (state : ∀ b s, s = .running ∨ s = .stopped → I b → I (b.setState s))
    (registers : ∀ b values, I b → I (b.setRegisters values))
    (breakpoints : r.Edits → ∀ b breakpoints, I b → I { b with cpu := { b.cpu with breakpoints } })
    (load : ∀ key, r = .loadImage key → Keeps I (Bench.loadImage key)) (reset : r = .reset → Keeps I Bench.reset)
    (execute : r = .resume ∨ r = .step → Keeps I r.serve) : Keeps I r.serve := by
  cases r with
  | status | registers | disassemble a count | breakpoints => exact fun b h => h
  | setRegisters values => exact keeps_bind (keeps_modify fun b h => registers b values h) fun _ => keeps_pure _
  | readMemory a length => exact keeps_readMemory a length
  | setBreakpoint a kind => exact keeps_bind (keeps_modify fun b h => breakpoints trivial b _ h) fun _ => keeps_pure _
  | clearBreakpoint a => exact fun b h => breakpoints trivial b _ h
  | boot => exact keeps_bind (keeps_modify fun b h => state b _ (.inl rfl) h) fun _ => keeps_pure _
  | stop => exact keeps_bind (keeps_modify fun b h => state b _ (.inr rfl) h) fun _ => keeps_pure _
  | loadImage key => exact keeps_bind (load key rfl) fun _ => keeps_pure _
  | reset => exact keeps_bind (reset rfl) fun _ => keeps_pure _
  | resume => exact execute (.inl rfl)
  | step => exact execute (.inr rfl)

namespace Actor

variable {a : Actor}

/-- The request that the next turn carries out. -/
def due? (a : Actor) : Option Request :=
  match a.active with
  | some t => some t.request
  | none => if a.bench.cpu.awaiting then none else a.queue.head?.map Ticket.request

/-- The requests that have been posted and are not finished. -/
def pending (a : Actor) : List Ticket := a.active.toList ++ a.queue

theorem bench_execute (a : Actor) (t : Ticket) : (a.execute t).1.bench = endState (t.request.serve a.bench) := by
  unfold execute
  split <;> next answer => rw [answer]; rfl

theorem pending_execute (a : Actor) (t : Ticket) : ∀ t' ∈ (a.execute t).1.pending, t' = t ∨ t' ∈ a.queue := by
  intro t' member
  unfold execute at member
  split at member
  · exact .inr member
  · exact List.mem_cons.mp member
  · exact .inr member

theorem bench_turn_of_due {r : Request} (due : a.due? = some r) : a.turn.1.bench = endState (r.serve a.bench) := by
  unfold due? at due
  unfold turn
  split
  next t active =>
    rw [active] at due
    cases due
    exact a.bench_execute t
  next idle =>
    rw [idle] at due
    split
    next awaiting => simp [awaiting] at due
    next ready =>
      cases queue : a.queue with
      | nil => simp [ready, queue] at due
      | cons t rest =>
        obtain rfl : t.request = r := by simpa [ready, queue] using due
        exact bench_execute { a with queue := rest } t

theorem bench_turn_of_idle (idle : a.due? = none) :
    a.turn.1.bench = if a.bench.cpu.awaiting ∨ a.bench.cpu.state = .running then a.bench.tick else a.bench := by
  unfold due? at idle
  unfold turn
  split
  next t active =>
    rw [active] at idle
    cases idle
  next inactive =>
    rw [inactive] at idle
    split
    next awaiting => rw [if_pos (.inl awaiting)]
    next ready =>
      cases queue : a.queue with
      | cons t rest => simp [ready, queue] at idle
      | nil => by_cases running : a.bench.cpu.state = .running <;> simp [ready, running]

theorem pending_turn (a : Actor) : ∀ t ∈ a.turn.1.pending, t ∈ a.pending := by
  intro t member
  unfold turn at member
  unfold pending
  split at member
  next t' active =>
    rw [active]
    exact List.mem_cons.mpr (a.pending_execute t' t member)
  next inactive =>
    split at member
    next => exact member
    next =>
      split at member
      next t' rest queue =>
        rw [inactive, queue]
        exact List.mem_cons.mpr (pending_execute { a with queue := rest } t' t member)
      next queue =>
        split at member <;> exact member

theorem due_mem_pending {r : Request} (due : a.due? = some r) : ∃ t ∈ a.pending, t.request = r := by
  unfold due? at due
  unfold pending
  split at due
  next t active =>
    cases due
    rw [active]
    exact ⟨t, List.mem_cons_self, rfl⟩
  next =>
    split at due
    · cases due
    · obtain ⟨t, head, rfl⟩ := Option.map_eq_some_iff.mp due
      exact ⟨t, List.mem_append_right _ (List.mem_of_head? head), rfl⟩

/-! ### Runs -/

/-- A turn is taken, a request is posted, or others do something to what is shared. -/
inductive Event where
  | turn
  | post (t : Ticket)
  | meanwhile (shared : Shared)

def step (a : Actor) : Event → Actor
  | .turn => a.turn.1
  | .post t => (a.post t).1
  | .meanwhile shared => { a with bench := { a.bench with shared } }

def after (a : Actor) : List Event → Actor
  | [] => a
  | e :: rest => (a.step e).after rest

theorem bench_post (a : Actor) (t : Ticket) : (a.post t).1.bench = a.bench := by
  unfold post
  split <;> rfl

theorem pending_post (a : Actor) (t : Ticket) : ∀ t' ∈ (a.post t).1.pending, t' = t ∨ t' ∈ a.pending := by
  intro t' member
  unfold post at member
  split at member
  · exact .inr member
  · unfold pending at member ⊢
    rw [← List.append_assoc, List.mem_append, List.mem_singleton] at member
    exact member.symm

end Actor

end Msp430
