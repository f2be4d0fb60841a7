import Mathlib.Data.List.Induction
import Msp430.Proofs.MisplacedWords
import Msp430.Proofs.StepStore

/-!
# The table of hooks

The loads at an address can have one hook, and so can the stores. The first hook bound there stays for good: a later
call for the same place is refused, and everything goes on as if it had not been made. An instance binds the hooks of
its peripherals in a fixed order. It can be made exactly if they all have different addresses, and otherwise the first
address that has come before is refused.
-/

namespace Msp430

open Access

variable {σ : Type}

/-- Where there can be one hook. -/
inductive Slot where
  | loads (a : UInt16)
  | stores (a : UInt16)
deriving DecidableEq, Repr

def Slot.address : Slot → UInt16
  | loads a | stores a => a

/-- A hook together with the address at which it is to be bound. -/
inductive Binding (σ : Type) where
  | read (a : UInt16) (hook : ReadHook σ)
  | write (a : UInt16) (hook : WriteHook σ)

def Binding.slot : Binding σ → Slot
  | read a _ => .loads a
  | write a _ => .stores a

/-! ### One call -/

namespace Hooks

variable {h : Hooks σ} {b e : Binding σ}

def bind (h : Hooks σ) : Binding σ → Except Fault (Hooks σ)
  | .read a hook => h.bindRead a hook
  | .write a hook => h.bindWrite a hook

/-- The hook is bound at its address. -/
def Holds (h : Hooks σ) : Binding σ → Prop
  | .read a hook => h.read a = some hook
  | .write a hook => h.write a = some hook

theorem not_holds_empty (b : Binding σ) : ¬ (empty : Hooks σ).Holds b := by
  cases b <;> exact nofun

theorem bind_taken (old : h.Holds e) (same : e.slot = b.slot) : h.bind b = .error (.hookConflict b.slot.address) := by
  cases b with
  | read a hook =>
    cases e with
    | write => cases same
    | read a' hook' =>
      cases same
      exact bindRead_eq_error.mpr ⟨Option.isSome_of_eq_some old, rfl⟩
  | write a hook =>
    cases e with
    | read => cases same
    | write a' hook' =>
      cases same
      exact bindWrite_eq_error.mpr ⟨Option.isSome_of_eq_some old, rfl⟩

theorem bind_free (fresh : ∀ e, h.Holds e → e.slot ≠ b.slot) :
    ∃ h', h.bind b = .ok h' ∧ ∀ e, h'.Holds e ↔ h.Holds e ∨ e = b := by
  cases b with
  | read a hook =>
    have free : h.read a = none := Option.eq_none_iff_forall_ne_some.mpr fun old taken => fresh (.read a old) taken rfl
    refine ⟨_, bindRead_eq_ok.mpr ⟨free, rfl⟩, fun e => ?_⟩
    cases e with
    | read a' hook' => exact (entry_eq_some free).trans (by simp [Holds])
    | write => simp [Holds]
  | write a hook =>
    have free : h.write a = none :=
      Option.eq_none_iff_forall_ne_some.mpr fun old taken => fresh (.write a old) taken rfl
    refine ⟨_, bindWrite_eq_ok.mpr ⟨free, rfl⟩, fun e => ?_⟩
    cases e with
    | read => simp [Holds]
    | write a' hook' => exact (entry_eq_some free).trans (by simp [Holds])

end Hooks

/-! ### Histories -/

namespace Hooked

variable {m m' : Hooked σ} {b e : Binding σ} {bs : List (Binding σ)} {f : Fault}

/-- Binds a hook, or refuses to and leaves the memory as it is. -/
def bind (b : Binding σ) : Access (Hooked σ) Unit := fun m =>
  match m.hooks.bind b with
  | .ok hooks => .ok () { m with hooks }
  | .error f => .error f m

/-- All that a call can do: a hook that has the slot makes it fail, or its own comes into the table. -/
theorem bind_cases (m : Hooked σ) (b : Binding σ) :
    ((∃ e, m.hooks.Holds e ∧ e.slot = b.slot) ∧ bind b m = .error (.hookConflict b.slot.address) m) ∨
      (∀ e, m.hooks.Holds e → e.slot ≠ b.slot) ∧
        ∃ h', bind b m = .ok () { m with hooks := h' } ∧ ∀ e, h'.Holds e ↔ m.hooks.Holds e ∨ e = b := by
  unfold bind
  by_cases taken : ∃ e, m.hooks.Holds e ∧ e.slot = b.slot
  · obtain ⟨e, held, same⟩ := taken
    rw [Hooks.bind_taken held same]
    exact .inl ⟨⟨e, held, same⟩, rfl⟩
  · have fresh : ∀ e, m.hooks.Holds e → e.slot ≠ b.slot := fun e held same => taken ⟨e, held, same⟩
    obtain ⟨h', made, holds⟩ := Hooks.bind_free fresh
    rw [made]
    exact .inr ⟨fresh, h', rfl, holds⟩

theorem bind_eq_error :
    bind b m = .error f m' ↔
      (∃ e, m.hooks.Holds e ∧ e.slot = b.slot) ∧ f = .hookConflict b.slot.address ∧ m' = m := by
  rcases bind_cases m b with ⟨taken, refused⟩ | ⟨fresh, h', made, -⟩
  · rw [refused, EStateM.Result.error.injEq]
    exact ⟨fun same => ⟨taken, same.1.symm, same.2.symm⟩, fun same => ⟨same.2.1.symm, same.2.2.symm⟩⟩
  · rw [made]
    refine ⟨nofun, ?_⟩
    rintro ⟨⟨e, held, same⟩, -⟩
    exact absurd same (fresh e held)

/-- What can be done with hooked memory. -/
inductive Use (σ : Type) where
  | bind (b : Binding σ)
  | touch (t : Touch)
  /-- An access past the hooks. -/
  | past (x : Access Memory Unit)
  | clear

namespace Use

def perform : Use σ → Access (Hooked σ) Unit
  | bind b => Hooked.bind b
  | touch t => (fun _ => ()) <$> t.make
  | past x => direct x
  | clear => modify Bus.clear

/-- The binding that is made. -/
def binds? (m : Hooked σ) : Use σ → Option (Binding σ)
  | bind b =>
    match Hooked.bind b m with
    | .ok _ _ => some b
    | .error _ _ => none
  | _ => none

theorem hooks_perform (u : Use σ) (other : ∀ b, u ≠ bind b) (m : Hooked σ) :
    (endState (u.perform m)).hooks = m.hooks := by
  cases u with
  | bind b => exact absurd rfl (other b)
  | touch t => exact keeps_map _ (fun m' same => (make_hooks t m').trans same) m rfl
  | past x => exact (keeps_direct (I := fun _ => True) x m ⟨rfl, trivial⟩).1
  | clear => rfl

end Use

/-- The memory after uses one after the other, each made whether or not those before it have failed. -/
def after (m : Hooked σ) (us : List (Use σ)) : Hooked σ := us.foldl (fun m u => endState (u.perform m)) m

/-- The bindings made in a history, the earliest first. -/
def bound (m : Hooked σ) : List (Use σ) → List (Binding σ)
  | [] => []
  | u :: rest => (u.binds? m).toList ++ (endState (u.perform m)).bound rest

theorem after_append (m : Hooked σ) (us vs : List (Use σ)) : m.after (us ++ vs) = (m.after us).after vs :=
  List.foldl_append

theorem bound_append (m : Hooked σ) (us vs : List (Use σ)) :
    m.bound (us ++ vs) = m.bound us ++ (m.after us).bound vs := by
  induction us generalizing m with
  | nil => rfl
  | cons u rest ih =>
    change _ ++ (endState (u.perform m)).bound (rest ++ vs) = _
    rw [ih, ← List.append_assoc]
    rfl

/-- The table holds the bindings, each in a slot of its own. -/
structure Tabled (bs : List (Binding σ)) (h : Hooks σ) : Prop where
  holds : ∀ b, h.Holds b ↔ b ∈ bs
  apart : (bs.map Binding.slot).Nodup

theorem Tabled.add {h h' : Hooks σ} (old : Tabled bs h) (fresh : ∀ e, h.Holds e → e.slot ≠ b.slot)
    (holds : ∀ e, h'.Holds e ↔ h.Holds e ∨ e = b) : Tabled (bs ++ [b]) h' := by
  constructor
  · intro e
    rw [holds, old.holds, List.mem_append, List.mem_singleton]
  · rw [List.map_append, List.nodup_append]
    refine ⟨old.apart, List.nodup_singleton _, ?_⟩
    intro s before s' last
    obtain ⟨e, member, rfl⟩ := List.mem_map.mp before
    obtain rfl := List.mem_singleton.mp last
    exact fresh e ((old.holds e).mpr member)

theorem Tabled.perform (old : Tabled bs m.hooks) (u : Use σ) :
    Tabled (bs ++ (u.binds? m).toList) (endState (u.perform m)).hooks := by
  cases u with
  | bind b =>
    -- What is bound and what the table becomes hang on the same call.
    change Tabled (bs ++ (Use.binds? m (.bind b)).toList) (endState (bind b m)).hooks
    rcases bind_cases m b with ⟨-, refused⟩ | ⟨fresh, h', made, holds⟩
    · simpa only [Use.binds?, refused, endState, Option.toList_none, List.append_nil] using old
    · simp only [Use.binds?, made, endState, Option.toList_some]
      exact old.add fresh holds
  | touch | past | clear =>
    rw [Use.hooks_perform _ (by simp)]
    exact (List.append_nil bs).symm ▸ old

theorem tabled_bound (empty : m.hooks = .empty) (us : List (Use σ)) : Tabled (m.bound us) (m.after us).hooks := by
  induction us using List.reverseRecOn with
  | nil =>
    refine ⟨fun b => ?_, List.nodup_nil⟩
    change m.hooks.Holds b ↔ _
    simp [empty, Hooks.not_holds_empty, bound]
  | append_singleton us u ih =>
    rw [bound_append, after_append, bound, bound, List.append_nil]
    exact ih.perform u

/-! ### Accesses -/

/-- The hook answers every access of its kind at its address. A load goes on to the memory if the hook fails, and no
instruction can be fetched where loads are hooked. -/
def Answers (m : Hooked σ) : Binding σ → Prop
  | .read a hook =>
    Bus.fetch a m = .error (.hookedFetch a) m ∧
      ∀ w, Bus.load w a m =
        match hook a m.backing with
        | .ok v b => .ok (w.trim v) { m with backing := b }
        | .error _ b => direct (Bus.load w a) { m with backing := b }
  | .write a hook => ∀ w v, Bus.store w a v m = onBacking (hook a (w.trim v)) m

theorem answers_of_holds (held : m.hooks.Holds b) : m.Answers b := by
  cases b with
  | read a hook =>
    have bound : m.hooks.read a = some hook := held
    refine ⟨by simp [Bus.fetch, bound], fun w => ?_⟩
    cases w with
    | byte =>
      change EStateM.map UInt8.toUInt16 (Bus.loadByte a) m = _
      unfold EStateM.map
      rw [loadByte_bound bound]
      cases hook a m.backing with
      | ok v b => simp only [Width.trim_byte]
      | error _ b => rfl
    | word =>
      refine (loadWord_bound bound).trans ?_
      simp only [Width.trim_word]
      rfl
  | write a hook =>
    have bound : m.hooks.write a = some hook := held
    intro w v
    cases w with
    | byte =>
      rw [Width.trim_byte]
      change hookedStore a _ _ m = _
      unfold hookedStore
      rw [bound]
    | word =>
      rw [Width.trim_word]
      refine (storeWord_eq m a v).trans ?_
      rw [bound]

/-- No slot ever has a second hook. The first one stays, and calls that are refused make no difference to anything. -/
structure Exclusive (m : Hooked σ) : Prop where
  apart : ∀ us, ((m.bound us).map Binding.slot).Nodup
  holds : ∀ us b, (m.after us).hooks.Holds b ↔ b ∈ m.bound us
  refuses : ∀ us b f m', bind b (m.after us) = .error f m' ↔
    (∃ e ∈ m.bound us, e.slot = b.slot) ∧ f = .hookConflict b.slot.address ∧ m' = m.after us
  upholds : ∀ us b f m', bind b (m.after us) = .error f m' →
    ∃ e ∈ m.bound us, e.slot = b.slot ∧ ∀ later,
      (m.after (us ++ .bind b :: later)).Answers e ∧ m.after (us ++ .bind b :: later) = m.after (us ++ later)

theorem after_refused {us : List (Use σ)} (refused : bind b (m.after us) = .error f m') (later : List (Use σ)) :
    m.after (us ++ .bind b :: later) = m.after (us ++ later) := by
  obtain ⟨-, -, rfl⟩ := bind_eq_error.mp refused
  rw [after_append, after_append]
  change (endState (bind b (m.after us))).after later = _
  rw [refused]
  rfl

theorem exclusive (empty : m.hooks = .empty) : m.Exclusive where
  apart us := (tabled_bound empty us).apart
  holds us := (tabled_bound empty us).holds
  refuses us b f m' := by simp only [bind_eq_error, (tabled_bound empty us).holds]
  upholds us b f m' refused := by
    obtain ⟨⟨e, held, same⟩, -, -⟩ := bind_eq_error.mp refused
    -- What has been bound is not given up later, so that it still answers.
    have made : e ∈ m.bound us := ((tabled_bound empty us).holds e).mp held
    refine ⟨e, made, same, fun later => ⟨?_, after_refused refused later⟩⟩
    apply answers_of_holds
    rw [(tabled_bound empty _).holds, bound_append]
    exact List.mem_append_left _ made

end Hooked

/-! ### Instances -/

/-- The addresses whose stores are hooked, in the order in which that is done. -/
def IoMap.hooked (io : IoMap) : List UInt16 :=
  [io.output, io.inputLength, io.debugLength, io.alarm, io.airflow, io.lock, io.temperature]

namespace Peripheral

variable {owner : String} {io : IoMap} {hooks : Hooks World}

theorem map_address (io : IoMap) : all.map (address io) = io.hooked := rfl

/-- The stores at the addresses of the peripherals are hooked, each by the peripheral that is there, and nothing else
is. -/
structure Wired (owner : String) (io : IoMap) (hooks : Hooks World) : Prop where
  read : ∀ a, hooks.read a = none
  write : ∀ a, (hooks.write a).isSome ↔ a ∈ io.hooked
  own : ∀ p : Peripheral, hooks.write (p.address io) = some (handler owner io p)

theorem wired_of_install (h : install owner io = .ok hooks) : Wired owner io hooks where
  read := (install_handles h).read
  own := install_binds h
  write a := by
    rw [← map_address, List.mem_map]
    constructor
    · intro taken
      obtain ⟨hook, bound⟩ := Option.isSome_iff_exists.mp taken
      obtain ⟨p, rfl, -⟩ := install_bound h bound
      exact ⟨p, p.mem_all, rfl⟩
    · rintro ⟨p, -, rfl⟩
      rw [install_binds h]
      rfl

end Peripheral

namespace Instance

variable {name : String} {config : InstanceConfig} {f : Fault}

theorem exists_build : (∃ i, build name config = .ok i) ↔ config.io.hooked.Nodup := by
  rcases build_or_conflict name config with ⟨distinct, made⟩ | ⟨a, repeated, refused⟩
  · exact ⟨fun _ => distinct, fun _ => made⟩
  · rw [refused]
    constructor
    · rintro ⟨i, made⟩
      cases made
    · intro distinct
      exact absurd distinct repeated.not_nodup

theorem build_eq_error :
    build name config = .error f ↔ ∃ a, FirstRepeated config.io.hooked a ∧ f = .hookConflict a := by
  rcases build_or_conflict name config with ⟨distinct, i, made⟩ | ⟨a, repeated, refused⟩
  · rw [made]
    refine ⟨nofun, ?_⟩
    rintro ⟨a, repeated, -⟩
    exact absurd distinct repeated.not_nodup
  · rw [refused]
    constructor
    · intro same
      cases same
      exact ⟨a, repeated, rfl⟩
    · rintro ⟨a', repeated', rfl⟩
      rw [repeated.unique repeated']

/-- Whatever is done with an instance, its hooks are those it has been made with. -/
theorem wired_of_build {i : Instance} (built : build name config = .ok i) (shared : Shared) (es : List Bench.Event) :
    Peripheral.Wired name config.io ((Bench.mk i shared).through es).machine.memory.hooks := by
  obtain ⟨board, rfl, rfl, rfl⟩ := exists_board built
  change Peripheral.Wired _ _ ((Bench.mk (.ofBoard board) shared).through es).cpu.board.hooks
  rw [Bench.board_through]
  exact Peripheral.wired_of_install board.installed

end Instance

namespace Hooks

/-- The first hook for the loads or the stores at an address is the only one there ever is. So an instance can be made
exactly if the addresses of its peripherals are all different, and then their stores are hooked for good. If not, it is
the first address to come up again that is refused. -/
theorem binding_exclusive :
    (∀ {σ : Type} (m : Hooked σ), m.hooks = .empty → m.Exclusive) ∧
    ∀ name config,
      ((∃ cpu, Instance.build name config = .ok cpu) ↔ config.io.hooked.Nodup) ∧
      (∀ cpu, Instance.build name config = .ok cpu → ∀ shared es,
        Peripheral.Wired name config.io ((Bench.mk cpu shared).through es).machine.memory.hooks) ∧
      ∀ f, Instance.build name config = .error f ↔ ∃ a, FirstRepeated config.io.hooked a ∧ f = .hookConflict a := by
  refine ⟨fun m empty => Hooked.exclusive empty, fun name config => ?_⟩
  exact ⟨Instance.exists_build, fun cpu built => Instance.wired_of_build built, fun f => Instance.build_eq_error⟩

/-- A hook that adds up what is stored. -/
def adding : WriteHook Nat := fun _ v b => .ok () { b with world := b.world + v.toNat }

def unhooked : Hooked Nat where
  hooks := .empty
  backing := { memory := .empty, world := 0 }

/-- Both directions of a word are bound, and something is stored there. -/
def contested : List (Hooked.Use Nat) :=
  [.bind (.write 0x0226 adding), .bind (.read 0x0226 fun _ b => .ok 0 b), .touch (.store .word 0x0226 5)]

/-- A hook that ignores what is stored at the same word. -/
def rival : Binding Nat := .write 0x0226 fun _ _ b => .ok () b

/-- Two addresses come up again, that of the debug log before that of the lock. -/
def crowded : InstanceConfig where
  io := { debugLength := 0x05CE, lock := 0x0222 }

/-- A second hook for the stores is refused, and the first one goes on adding. The usual addresses are all different,
and of the crowded ones the first that comes up again is refused. -/
theorem contested_exclusive :
    Hooked.bind rival (unhooked.after contested) = .error (.hookConflict 0x0226) (unhooked.after contested) ∧
      (unhooked.after (contested ++ [.bind rival, .touch (.store .byte 0x0226 0x0107)])).backing.world = 12 ∧
      (∃ e ∈ unhooked.bound contested, e.slot = .stores 0x0226 ∧ ∀ later,
        (unhooked.after (contested ++ .bind rival :: later)).Answers e ∧
          unhooked.after (contested ++ .bind rival :: later) = unhooked.after (contested ++ later)) ∧
      (∃ cpu, Instance.build "unit" {} = .ok cpu) ∧
      Instance.build "unit" crowded = .error (.hookConflict 0x05CE) := by
  have refused : Hooked.bind rival (unhooked.after contested) =
      .error (.hookConflict 0x0226) (unhooked.after contested) := rfl
  have repeated : FirstRepeated crowded.io.hooked 0x05CE :=
    ⟨[0x05CE, 0x0282], [0x0222, 0x0226, 0x0222, 0x0224], rfl, by decide, List.mem_cons_self⟩
  obtain ⟨exclusive, built⟩ := binding_exclusive
  exact ⟨refused, by decide +kernel, (exclusive unhooked rfl).upholds _ _ _ _ refused,
    (built "unit" {}).1.mpr (by decide), ((built "unit" crowded).2.2 _).mpr ⟨0x05CE, repeated, rfl⟩⟩

end Hooks

end Msp430
