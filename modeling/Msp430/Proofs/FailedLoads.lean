import Mathlib.Data.List.Induction
import Msp430.Proofs.Counters

/-!
# Loads that fail

A load of an image fails for want of the image, and then it has changed nothing, or at a line of it, and then the
memory is as the loader leaves it and nothing else has changed. A reset fails as its load does. So the image that a
reset loads is always the last one that has been loaded with success.
-/

namespace Msp430

open Access

namespace Bench

variable {b b' : Bench} {key : String} {e : ControlError}

/-- How a load of the image at a key can fail, and what it leaves. -/
inductive FailedLoad (key : String) (b : Bench) : ControlError → Bench → Prop
  | absent (free : b.shared.store[key]? = none) : FailedLoad key b (.store (.notFound key)) b
  | list {items : List Bytes} (held : b.shared.store[key]? = some (.list items)) :
    FailedLoad key b (.store (.wrongType key)) b
  | broken {image : Bytes} {cause : Image.Error} {memory : Memory}
    (held : b.shared.store[key]? = some (.bytes image))
    (stopped : (Image.load image : EStateM Image.Error Memory Nat) b.cpu.memory = .error cause memory) :
    FailedLoad key b (.image cause) { b with cpu := { b.cpu with memory } }

/-- The image at a key has been loaded. -/
structure Loaded (key : String) (b b' : Bench) : Prop where
  memory : ∃ image n, b.shared.store[key]? = some (.bytes image) ∧
    (Image.load image : EStateM Image.Error Memory Nat) b.cpu.memory = .ok n b'.cpu.memory
  image : b'.cpu.image = key

/-! ### One load -/

theorem submit_get (key : String) (b : Bench) :
    submit (KeyValue.get key) b =
      match b.shared.store[key]? with
      | none => .ok none b
      | some (.bytes image) => .ok (some image) b
      | some (.list _) => .error (.store (.wrongType key)) b := by
  unfold submit
  rw [KeyValue.get_apply]
  cases b.shared.store[key]? with
  | none => rfl
  | some value => cases value <;> rfl

theorem loadImage_apply (key : String) (b : Bench) :
    loadImage key b =
      match b.shared.store[key]? with
      | none => .error (.store (.notFound key)) b
      | some (.bytes image) =>
        match (Image.load image : EStateM Image.Error Memory Nat) b.cpu.memory with
        | .ok n memory =>
          .ok n
            ({ b with cpu := { b.cpu with memory, image := key } }.mapMetrics (·.recordImageLoad b.cpu.name))
        | .error cause memory => .error (.image cause) { b with cpu := { b.cpu with memory } }
      | some (.list _) => .error (.store (.wrongType key)) b := by
  have found := submit_get key b
  cases held : b.shared.store[key]? with
  | none =>
    rw [held] at found
    exact (bind_of_ok found).trans rfl
  | some value =>
    rw [held] at found
    cases value with
    | list items => exact bind_eq_error.mpr (.inl found)
    | bytes image =>
      refine (bind_of_ok found).trans ?_
      cases stored : (Image.load image : EStateM Image.Error Memory Nat) b.cpu.memory with
      | ok n memory =>
        have written : loadBytes image b = .ok n { b with cpu := { b.cpu with memory } } := by
          unfold loadBytes
          rw [stored]
        refine (bind_of_ok written).trans ?_
        simp only [stored]
        rfl
      | error cause memory =>
        have stopped : loadBytes image b = .error (.image cause) { b with cpu := { b.cpu with memory } } := by
          unfold loadBytes
          rw [stored]
        refine (bind_eq_error.mpr (.inl stopped)).trans ?_
        simp only [stored]

theorem loadImage_ok {n : Nat} (loaded : loadImage key b = .ok n b') : Loaded key b b' := by
  rw [loadImage_apply] at loaded
  split at loaded
  · cases loaded
  · next image held =>
    split at loaded <;> cases loaded
    next memory stored => exact ⟨⟨image, n, held, stored⟩, rfl⟩
  · cases loaded

theorem loadImage_error : loadImage key b = .error e b' ↔ FailedLoad key b e b' := by
  rw [loadImage_apply]
  constructor
  · intro failed
    split at failed
    · cases failed
      exact .absent ‹_›
    · next held =>
      split at failed <;> cases failed
      exact .broken held ‹_›
    · cases failed
      exact .list ‹_›
  · rintro (free | held | ⟨held, stopped⟩)
    · rw [free]
    · rw [held]
    · rw [held]
      simp only [stopped]

/-- What a reset does after its load cannot fail. -/
theorem reset_error : reset b = .error e b' ↔ FailedLoad b.cpu.image b e b' := by
  rw [reset_eq, bind_eq_error, ← loadImage_error]
  refine ⟨fun failed => failed.resolve_right ?_, .inl⟩
  rintro ⟨n, b₁, -, restarted⟩
  cases restarted

theorem reset_ok {u : Unit} (done : reset b = .ok u b') : Loaded b.cpu.image b b' := by
  rw [reset_eq] at done
  obtain ⟨n, b₁, loaded, restarted⟩ := bind_eq_ok.mp done
  cases restarted
  obtain ⟨⟨image, n, held, stored⟩, same⟩ := loadImage_ok loaded
  exact ⟨⟨image, n, held, by rw [cpu_restart]; exact stored⟩, by rw [cpu_restart]; exact same⟩

/-! ### The image of a reset -/

theorem image_advance (b : Bench) : b.advance.2.cpu.image = b.cpu.image := by
  have begun : b.begun.cpu.image = b.cpu.image := congrArg Instance.image b.cpu_begun
  by_cases waits : b.machine.step.1 = .failed .awaitingInput
  · rw [advance_waits waits]
    exact begun
  · rw [advance_goes waits]
    exact begun

theorem image_setRegisters (b : Bench) (values : Vector (Option UInt16) 16) :
    (b.setRegisters values).cpu.image = b.cpu.image := by
  unfold setRegisters
  rfl

theorem lasting_image : Lasting fun b => b.cpu.image = key where
  state b s same := by rw [cpu_setState]; exact same
  advance b same := b.image_advance.trans same
  fail b f same := by rw [cpu_fail]; exact same
  registers b values same := (b.image_setRegisters values).trans same
  breakpoints _ _ same := same

end Bench

/-- The image that a request to load one has loaded. -/
def Done.loaded? (d : Done) : Option String :=
  match d.op with
  | .serve (.loadImage key) => if succeeds (Bench.loadImage key d.before) then some key else none
  | _ => none

namespace Bench.FailedLoad

variable {b b' : Bench} {key : String} {e : ControlError}

theorem image (failed : FailedLoad key b e b') : b'.cpu.image = b.cpu.image := by cases failed <;> rfl

end Bench.FailedLoad

theorem Request.image_serve_other {r : Request} {b : Bench} (kept : ∀ key, r ≠ .loadImage key)
    (continued : r ≠ .reset) : (endState (r.serve b)).cpu.image = b.cpu.image :=
  Bench.lasting_image.serve (fun key same => absurd same (kept key)) (fun same => absurd same continued) b rfl

theorem Op.image_apply (op : Op) (b : Bench) :
    (op.apply b).cpu.image = ((Done.mk b op).loaded?).getD b.cpu.image := by
  cases op with
  | tick => exact Bench.lasting_image.tick rfl
  | step => exact Bench.keeps_step Bench.lasting_image.advance b rfl
  | post content => rfl
  | serve r =>
    cases r with
    | loadImage key =>
      have same : endState ((Request.loadImage key).serve b) = endState (Bench.loadImage key b) :=
        endState_bind_pure _ _ b
      change (endState ((Request.loadImage key).serve b)).cpu.image =
        (if succeeds (Bench.loadImage key b) then some key else none).getD b.cpu.image
      rw [same]
      cases loaded : Bench.loadImage key b with
      | ok n b' => exact (Bench.loadImage_ok loaded).image
      | error e b' => exact (Bench.loadImage_error.mp loaded).image
    | reset =>
      have same : endState (Request.reset.serve b) = endState (Bench.reset b) := endState_bind_pure _ _ b
      change (endState (Request.reset.serve b)).cpu.image = b.cpu.image
      rw [same]
      cases done : Bench.reset b with
      | ok u b' => exact (Bench.reset_ok done).image
      | error e b' => exact (Bench.reset_error.mp done).image
    | _ => exact Request.image_serve_other nofun nofun

namespace Bench

variable {b : Bench} {es : List Event}

/-- The image of the last load that has succeeded, or `boot` if none has. -/
def lastLoaded (boot : String) (ds : List Done) : String := (ds.filterMap Done.loaded?).getLast?.getD boot

theorem image_through (b : Bench) (es : List Event) :
    (b.through es).cpu.image = lastLoaded b.cpu.image (b.done es) := by
  induction es using List.reverseRecOn with
  | nil => rfl
  | append_singleton es e ih =>
    rw [through_concat, done_concat]
    cases e with
    | meanwhile change =>
      have nothing : (b.through es).done? (.meanwhile change) = none := rfl
      rw [nothing, Option.toList_none, List.append_nil]
      exact ih
    | own op =>
      have one : (b.through es).done? (.own op) = some ⟨b.through es, op⟩ := rfl
      refine ((op.image_apply (b.through es))).trans ?_
      rw [one, lastLoaded, List.filterMap_append, List.getLast?_append, ih]
      cases loaded : (Done.mk (b.through es) op).loaded? <;> simp [loaded, lastLoaded]

theorem image_of_build {name : String} {config : InstanceConfig} {cpu : Instance}
    (built : Instance.build name config = .ok cpu) : cpu.image = config.bootImage := by
  obtain ⟨board, -, rfl, rfl⟩ := Instance.exists_board built
  rfl

/-- A load or a reset that fails changes nothing but the memory, and not even that if there is no image. However many
have failed, a reset loads the last image that has been loaded with success, or the boot image if none has. -/
theorem failed_loads_harmless :
    (∀ (key : String) (b : Bench) e b', loadImage key b = .error e b' ↔ FailedLoad key b e b') ∧
    (∀ (b : Bench) e b', reset b = .error e b' ↔ FailedLoad b.cpu.image b e b') ∧
    ∀ name config cpu shared es, Instance.build name config = .ok cpu →
      let b := (Bench.mk cpu shared).through es
      b.cpu.image = lastLoaded config.bootImage ((Bench.mk cpu shared).done es) ∧
      ∀ b', reset b = .ok () b' → Loaded (lastLoaded config.bootImage ((Bench.mk cpu shared).done es)) b b' := by
  refine ⟨fun _ _ _ _ => loadImage_error, fun _ _ _ => reset_error, ?_⟩
  intro name config cpu shared es built
  have last : ((Bench.mk cpu shared).through es).cpu.image =
      lastLoaded config.bootImage ((Bench.mk cpu shared).done es) := by
    rw [image_through, image_of_build built]
  exact ⟨last, fun b' done => last ▸ reset_ok done⟩

/-- A new instance with a program in the store, a list, and an image whose second line is too short. -/
def supplied : Bench where
  cpu := .ofBoard (usualBoard "unit")
  shared :=
    { store := (((∅ : KeyValue.Store).insert "prog" (.bytes (Utf8.ofString ":02440000FF3F7C"))).insert "notes"
        (.list [Utf8.ofString "one"])).insert "torn" (.bytes (Utf8.ofString ":02440000154362\n:02440200")) }

/-- A load that succeeds, and then one that fails in each of the three ways. -/
def attempts : List Event :=
  [.own (.serve (.loadImage "prog")), .own (.serve (.loadImage "boot")), .own (.serve (.loadImage "notes")),
    .own (.serve (.loadImage "torn"))]

theorem attempts_keep_program :
    ¬ succeeds (reset supplied) ∧ succeeds (reset (supplied.through attempts)) ∧
      lastLoaded "boot" (supplied.done attempts) = "prog" ∧
      ∀ b', reset (supplied.through attempts) = .ok () b' → Loaded "prog" (supplied.through attempts) b' := by
  have built : Instance.build "unit" {} = .ok (Instance.ofBoard (usualBoard "unit")) := rfl
  have last : lastLoaded "boot" (supplied.done attempts) = "prog" := by decide +kernel
  have reloads : ∀ b', reset (supplied.through attempts) = .ok () b' →
      Loaded (lastLoaded "boot" (supplied.done attempts)) (supplied.through attempts) b' :=
    (failed_loads_harmless.2.2 "unit" {} supplied.cpu supplied.shared attempts built).2
  rw [last] at reloads
  exact ⟨by decide +kernel, by decide +kernel, last, reloads⟩

end Bench

end Msp430
