import Msp430.Proofs.Debugger
import Msp430.Proofs.FlatMemory
import Msp430.Proofs.Lengths

/-!
# The listing of what will be executed

A listing fetches and decodes from memory as it stands; a run does so one step at a time, from memory that its own
steps change. `disassembles` shows that the two agree on a stretch without jumps whose code nobody changes before its
turn, and what a listing is at any address.
-/

namespace Msp430

/-! ### The instruction at an address -/

theorem Memory.fetch_eq_ok {m : Memory} {a : UInt16} {raw : Vector UInt8 6} :
    m.fetch a = .ok raw ↔
      ¬lastFetch < a ∧ ¬a % 2 = 1 ∧ raw = .ofFn fun i : Fin 6 => m.byteAt (a + .ofNat i.val) := by
  unfold fetch
  by_cases high : lastFetch < a
  · simp [high]
  by_cases odd : a % 2 = 1
  · simp [high, odd]
  · simp [high, odd, eq_comm]

theorem Memory.instructionAt_eq_ok {m : Memory} {a : UInt16} {d : Decoded} :
    m.instructionAt a = .ok d ↔ ∃ raw, m.fetch a = .ok raw ∧ decode raw.toList = .ok d := by
  unfold instructionAt
  cases m.fetch a with
  | error f => simp
  | ok raw =>
    cases found : decode raw.toList with
    | error cause =>
      have lost : (Except.error cause : Except _ Decoded).mapError Fault.undecodable = .error (.undecodable cause) := rfl
      simp [lost, found]
    | ok d' =>
      have kept : (Except.ok d').mapError Fault.undecodable = .ok d' := rfl
      simp [kept, found]

theorem Memory.instructionAt_of_intact {m m' : Memory} {a : UInt16} {d : Decoded} (h : m.instructionAt a = .ok d)
    (intact : ∀ o < d.instruction.size, m'.byteAt (a + .ofNat o) = m.byteAt (a + .ofNat o)) :
    m'.instructionAt a = .ok d := by
  obtain ⟨raw, fetched, found⟩ := instructionAt_eq_ok.mp h
  obtain ⟨low, aligned, rfl⟩ := fetch_eq_ok.mp fetched
  have same : (Vector.ofFn fun i : Fin 6 => m.byteAt (a + .ofNat i.val)).toList.take d.instruction.size <+:
      (Vector.ofFn fun i : Fin 6 => m'.byteAt (a + .ofNat i.val)).toList := by
    rw [List.prefix_iff_getElem?]
    intro o within
    simp only [List.length_take, Vector.length_toList] at within
    have start := intact o (by omega)
    simp [start]
    omega
  exact instructionAt_eq_ok.mpr ⟨_, fetch_eq_ok.mpr ⟨low, aligned, rfl⟩, decode_of_take found same⟩

namespace Hooked

variable {σ : Type} {h h' : Hooked σ} {a : UInt16} {d : Decoded}

/-- An instruction is fetched and decoded at an address, which leaves the memory as it is. -/
def Finds (h : Hooked σ) (a : UInt16) (d : Decoded) : Prop :=
  ∃ raw, Bus.fetch a h = .ok raw h ∧ decode raw.toList = .ok d

/-- The fetch at an address fails or what is fetched cannot be decoded, which too leaves the memory as it is. -/
def Lacks (h : Hooked σ) (a : UInt16) : Prop :=
  (∃ f, Bus.fetch a h = .error f h) ∨ ∃ raw cause, Bus.fetch a h = .ok raw h ∧ decode raw.toList = .error cause

def peek (h : Hooked σ) (a : UInt16) : Except Fault (Vector UInt8 6) :=
  if (h.hooks.read a).isSome then .error (.hookedFetch a) else h.backing.memory.fetch a

theorem fetch_eq (h : Hooked σ) (a : UInt16) :
    Bus.fetch a h =
      match h.peek a with
      | .ok raw => .ok raw h
      | .error f => .error f h := by
  simp only [Bus.fetch, direct, onBacking, Backing.onMemory, Access.focus, Access.look, peek]
  split
  · rfl
  · cases h.backing.memory.fetch a <;> rfl

theorem finds_iff : h.Finds a d ↔ (h.hooks.read a).isSome = false ∧ h.backing.memory.instructionAt a = .ok d := by
  unfold Finds
  rw [Memory.instructionAt_eq_ok, fetch_eq, peek]
  cases bound : (h.hooks.read a).isSome with
  | true => simp
  | false => cases h.backing.memory.fetch a <;> simp

theorem Finds.of_intact (found : h.Finds a d) (hooks : h'.hooks = h.hooks)
    (intact : ∀ o < d.instruction.size,
      h'.backing.memory.byteAt (a + .ofNat o) = h.backing.memory.byteAt (a + .ofNat o)) : h'.Finds a d := by
  rw [finds_iff] at found ⊢
  rw [hooks]
  exact ⟨found.1, Memory.instructionAt_of_intact found.2 intact⟩

end Hooked

namespace Machine

variable {σ : Type} {m : Machine (Hooked σ)}

theorem finds_of_ran {d : Decoded} (h : m.step.1 = .ran d) : m.memory.Finds m.registers.pc d := by
  have cycled : ∃ m', cycle m = .ok d m' := by
    unfold step at h
    split at h
    · next m' ok =>
      split at h <;> cases h
      exact ⟨m', ok⟩
    · cases h
  obtain ⟨m', cycled⟩ := cycled
  obtain ⟨rs, m₀, got, cycled⟩ := Access.bind_eq_ok.mp cycled
  cases got
  obtain ⟨raw, m₁, fetched, cycled⟩ := Access.bind_eq_ok.mp cycled
  have decoded : decode raw.toList = .ok d := by
    cases found : decode raw.toList with
    | error cause =>
      rw [found] at cycled
      cases cycled
    | ok d' =>
      rw [found] at cycled
      obtain ⟨rs, m₂, -, cycled⟩ := Access.bind_eq_ok.mp cycled
      obtain ⟨u, m₃, -, cycled⟩ := Access.bind_eq_ok.mp cycled
      obtain ⟨u, m₄, -, cycled⟩ := Access.bind_eq_ok.mp cycled
      cases cycled
      rfl
  refine ⟨raw, ?_, decoded⟩
  unfold onMemory Access.focus at fetched
  rw [Hooked.fetch_eq] at fetched ⊢
  cases read : m.memory.peek m.registers.pc <;> rw [read] at fetched <;> cases fetched
  rfl

theorem hooks_steps (m : Machine (Hooked σ)) (n : Nat) : (m.steps n).memory.hooks = m.memory.hooks := by
  induction n generalizing m with
  | zero => rfl
  | succ n ih =>
    have any : m.memory.hooks.Keeps fun _ => True :=
      ⟨fun _ _ _ _ _ _ => trivial, fun _ _ _ _ _ _ _ => trivial⟩
    rw [steps, ih]
    exact (step_keeps (Hooked.bus_keeps any) (m := m) ⟨rfl, trivial⟩).1

/-- The machine runs the instructions `ds` one behind the other: each step runs on and leaves the program counter
behind its instruction, and no step changes a byte of an instruction whose turn is still to come. -/
structure Straight (n : Nat) (ds : Nat → Decoded) (m : Machine (Hooked σ)) : Prop where
  ran : ∀ k < n, (m.steps k).step.1 = .ran (ds k)
  onward : ∀ k < n,
    (m.steps (k + 1)).registers.pc = (m.steps k).registers.pc + .ofNat (ds k).instruction.size
  intact : ∀ j k, j < k → k < n → ∀ o < (ds k).instruction.size,
    (m.steps (j + 1)).memory.backing.memory.byteAt ((m.steps k).registers.pc + .ofNat o) =
      (m.steps j).memory.backing.memory.byteAt ((m.steps k).registers.pc + .ofNat o)

/-- What is executed in its turn stands in memory from the start. -/
theorem Straight.finds {n k : Nat} {ds : Nat → Decoded} (h : m.Straight n ds) (hk : k < n) :
    m.memory.Finds (m.steps k).registers.pc (ds k) := by
  refine (finds_of_ran (h.ran k hk)).of_intact (hooks_steps m k).symm fun o ho => ?_
  have kept : ∀ j ≤ k,
      m.memory.backing.memory.byteAt ((m.steps k).registers.pc + .ofNat o) =
        (m.steps j).memory.backing.memory.byteAt ((m.steps k).registers.pc + .ofNat o) := by
    intro j
    induction j with
    | zero => exact fun _ => rfl
    | succ j ih => exact fun hj => (ih (by omega)).trans (h.intact j k hj hk o ho).symm
  exact kept k (Nat.le_refl k)

end Machine

/-! ### Listings -/

namespace Instance

variable {i : Instance} {a : UInt16} {n n' : Nat}

theorem listFrom_eq {site : Nat → UInt16} {ds : Nat → Decoded} (found : ∀ k < n, i.decodeAt (site k) = .ok (ds k))
    (onward : ∀ k < n, site (k + 1) = site k + .ofNat (ds k).instruction.size) :
    i.listFrom (site 0) n = (List.range n).map fun k => ⟨site k, (ds k).listing⟩ := by
  induction n generalizing site ds with
  | zero => rfl
  | succ n ih =>
    have later : ∀ k < n, i.decodeAt (site (k + 1)) = .ok (ds (k + 1)) := fun k hk => found (k + 1) (by omega)
    have rest := ih later fun k hk => onward (k + 1) (by omega)
    rw [onward 0 (by omega)] at rest
    simp only [listFrom, found 0 (by omega), rest, List.range_succ_eq_map, List.map_cons, List.map_map]
    rfl

theorem listFrom_prefix (h : n ≤ n') : i.listFrom a n <+: i.listFrom a n' := by
  induction n generalizing a n' with
  | zero => exact List.nil_prefix
  | succ n ih =>
    obtain ⟨l, rfl⟩ : ∃ l, n' = l + 1 := ⟨n' - 1, by omega⟩
    simp only [listFrom]
    cases i.decodeAt a with
    | ok d => exact List.cons_prefix_cons.mpr ⟨rfl, ih (by omega)⟩
    | error f => exact List.prefix_rfl

end Instance

namespace Bench

variable {b : Bench} {a : UInt16} {d : Decoded}

theorem fetch_machine (b : Bench) (a : UInt16) :
    Bus.fetch a b.machine.memory =
      match b.cpu.fetch a with
      | .ok raw => .ok raw b.machine.memory
      | .error f => .error f b.machine.memory :=
  Hooked.fetch_eq b.machine.memory a

theorem finds_of_decodeAt (h : b.cpu.decodeAt a = .ok d) : b.machine.memory.Finds a d := by
  unfold Hooked.Finds
  rw [fetch_machine]
  obtain ⟨raw, fetched, h⟩ := except_bind_ok h
  rw [fetched]
  split at h
  · next decoded =>
    cases h
    exact ⟨raw, rfl, decoded⟩
  · cases h

theorem decodeAt_of_finds (h : b.machine.memory.Finds a d) : b.cpu.decodeAt a = .ok d := by
  obtain ⟨raw, fetched, decoded⟩ := h
  rw [fetch_machine] at fetched
  unfold Instance.decodeAt
  split at fetched
  · next raw' same =>
    cases fetched
    rw [same]
    simp only [bind, Except.bind, decoded]
    rfl
  · cases fetched

theorem lacks_of_decodeAt {f : Fault} (h : b.cpu.decodeAt a = .error f) : b.machine.memory.Lacks a := by
  unfold Hooked.Lacks
  rw [fetch_machine]
  unfold Instance.decodeAt at h
  cases fetched : b.cpu.fetch a with
  | error f => exact .inl ⟨f, rfl⟩
  | ok raw =>
    rw [fetched] at h
    simp only [bind, Except.bind] at h
    cases decoded : decode raw.toList with
    | ok d =>
      rw [decoded] at h
      cases h
    | error cause => exact .inr ⟨raw, cause, rfl, decoded⟩

/-- `lines` lists the instructions at `site 0`, `site 1` and so on, each of which ends where the next begins. The
lines are as many as `limit` allows unless there is no instruction behind the last. -/
structure Listed (b : Bench) (a : UInt16) (limit : Nat) (lines : List ListingLine) (site : Nat → UInt16) : Prop where
  bound : lines.length ≤ limit
  start : site 0 = a
  entry : ∀ k line, lines[k]? = some line →
    ∃ d, b.machine.memory.Finds (site k) d ∧ line = ⟨site k, d.listing⟩ ∧
      site (k + 1) = site k + .ofNat d.instruction.size
  ended : lines.length < limit → b.machine.memory.Lacks (site lines.length)

theorem listFrom_listed (b : Bench) (a : UInt16) (n : Nat) : ∃ site, b.Listed a n (b.cpu.listFrom a n) site := by
  induction n generalizing a with
  | zero => exact ⟨fun _ => a, Nat.le_refl _, rfl, nofun, nofun⟩
  | succ n ih =>
    unfold Instance.listFrom
    cases h : b.cpu.decodeAt a with
    | error f => exact ⟨fun _ => a, Nat.zero_le _, rfl, nofun, fun _ => lacks_of_decodeAt h⟩
    | ok d =>
      obtain ⟨site, listed⟩ := ih (a + .ofNat d.instruction.size)
      refine ⟨fun k => k.casesOn a site, Nat.succ_le_succ listed.bound, rfl, fun k line at_k => ?_, fun short => ?_⟩
      · cases k with
        | zero =>
          cases at_k
          exact ⟨d, finds_of_decodeAt h, rfl, listed.start⟩
        | succ k => exact listed.entry k line at_k
      · exact listed.ended (Nat.lt_of_succ_lt_succ short)

/-- What a client can rely on in a listing. -/
structure Disassembles (b : Bench) : Prop where
  /-- On a stretch without jumps it shows what is going to be executed. -/
  executed : ∀ n ds, n ≤ b.cpu.config.maxDisassembly → b.machine.Straight n ds →
    b.cpu.disassemble b.cpu.registers.pc n =
      (List.range n).map fun k => ⟨(b.machine.steps k).registers.pc, (ds k).listing⟩
  listed : ∀ a count, ∃ site, b.Listed a (min count b.cpu.config.maxDisassembly) (b.cpu.disassemble a count) site
  shorter : ∀ a count more, count ≤ more → b.cpu.disassemble a count <+: b.cpu.disassemble a more
  unchanged : ∀ a count, (Request.disassemble a count).serve b = .ok (.listing (b.cpu.disassemble a count)) b

theorem disassembles (b : Bench) : b.Disassembles where
  executed := by
    intro n ds within straight
    unfold Instance.disassemble
    rw [Nat.min_eq_left within]
    have found : ∀ k < n, b.cpu.decodeAt (b.machine.steps k).registers.pc = .ok (ds k) :=
      fun k hk => decodeAt_of_finds (straight.finds hk)
    exact Instance.listFrom_eq found straight.onward
  listed a count := b.listFrom_listed a _
  shorter a count more h := Instance.listFrom_prefix (by omega)
  unchanged a count := rfl

/-- A program whose first instruction clears the word behind its second one. -/
def overwriting : Bench where
  cpu :=
    { Instance.ofBoard (usualBoard "overwriting") with
      memory := Memory.empty.storeBytes 0x4400 [0x82, 0x44, 0x06, 0x44, 0x15, 0x53, 0xFD, 0x3F] }
  shared := {}

theorem overwriting_disassembled :
    ∃ ds, overwriting.machine.Straight 2 ds ∧
      (overwriting.machine.steps 1).memory.backing.memory.byteAt 0x4406 ≠ overwriting.cpu.memory.byteAt 0x4406 ∧
      overwriting.cpu.disassemble overwriting.cpu.registers.pc 2 =
        [⟨0x4400, "82 44 06 44       \tMOV R4, &4406"⟩, ⟨0x4404, "15 53             \tADD #1, R5"⟩] ∧
      overwriting.Disassembles := by
  let ds : Nat → Decoded
    | 0 => ⟨.double .mov false (.register 4) (.absolute 0x4406), [0x82, 0x44, 0x06, 0x44]⟩
    | _ => ⟨.double .add false (.constant .one) (.register 5), [0x15, 0x53]⟩
  have straight : overwriting.machine.Straight 2 ds := by
    refine ⟨fun k hk => ?_, fun k hk => ?_, fun j k hjk hk => ?_⟩
    · match k, hk with
      | 0, _ | 1, _ => rfl
    · match k, hk with
      | 0, _ | 1, _ => rfl
    · obtain ⟨rfl, rfl⟩ : j = 0 ∧ k = 1 := by omega
      decide +kernel
  have listed := (disassembles overwriting).executed 2 ds (by decide) straight
  refine ⟨ds, straight, by decide +kernel, listed.trans ?_, disassembles overwriting⟩
  decide +kernel

end Bench

end Msp430
