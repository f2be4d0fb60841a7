import Mathlib.Data.List.Nodup
import Msp430.KeyValue.Command
import Msp430.Proofs.StoreLocality

/-!
# Peripherals at their addresses and keys

The hooks of an instance are those of its peripherals, each at its own address. A peripheral leaves the keys at which
it does not work as they are.
-/

namespace Msp430

open Access

/-! ### Keys -/

namespace KeyValue

variable {key other : String} {entry : Option Value} {s : Store}

theorem get_apply (key : String) (s : Store) :
    get key s = match s[key]? with
      | none => .ok none s
      | some (.bytes content) => .ok (some content) s
      | some (.list _) => .error (.wrongType key) s := by
  change (match s[key]? with
    | none => pure none
    | some (.bytes content) => pure (some content)
    | some (.list _) => throw (.wrongType key) : Job (Option Bytes)) s = _
  cases s[key]? with
  | none => rfl
  | some v => cases v <;> rfl

theorem items_apply (key : String) (s : Store) :
    items key s = match s[key]? with
      | none => .ok [] s
      | some (.list items) => .ok items s
      | some (.bytes _) => .error (.wrongType key) s := by
  change (match s[key]? with
    | none => pure []
    | some (.list items) => pure items
    | some (.bytes _) => throw (.wrongType key) : Job (List Bytes)) s = _
  cases s[key]? with
  | none => rfl
  | some v => cases v <;> rfl

/-- Both stores are one, which holds the entry at the key. -/
def Fixed (key : String) (entry : Option Value) (s t : Store) : Prop := s = t ∧ s[key]? = entry

theorem fixed_respects (apart : other ≠ key) : Respects other (Fixed key entry) where
  agree s t same := by rw [same.1]
  insert := by
    rintro s _ v ⟨rfl, same⟩
    have different : ¬ compare other key = .eq := fun same => apart (Std.LawfulEqCmp.eq_of_compare same)
    exact ⟨rfl, by rw [Std.ExtTreeMap.getElem?_insert, if_neg different, same]⟩
  erase := by
    rintro s _ ⟨rfl, same⟩
    have different : ¬ compare other key = .eq := fun same => apart (Std.LawfulEqCmp.eq_of_compare same)
    exact ⟨rfl, by rw [Std.ExtTreeMap.getElem?_erase, if_neg different, same]⟩

theorem keeps_of_fixed {job : Job α} (h : Simulates (Fixed key entry) job job) :
    Keeps (fun s : Store => s[key]? = entry) job :=
  fun s same => (h s s ⟨rfl, same⟩).endState.2

theorem range_simulates {Q : Store → Store → Prop} (own : Respects key Q) (first last : Int64) :
    Simulates Q (range key first last) (range key first last) :=
  simulates_bind (items_simulates own.agree) fun _ => simulates_pure _

theorem command_simulates {Q : Store → Store → Prop} (c : Command) (own : Respects c.key Q) :
    Simulates Q c.job c.job := by
  cases c with
  | get key => exact simulates_bind (get_simulates own.agree) fun _ => simulates_pure _
  | set key content => exact simulates_bind (set_simulates own content) fun _ => simulates_pure _
  | del key => exact simulates_bind (del_simulates own) fun _ => simulates_pure _
  | getRange key first last => exact simulates_bind (getRange_simulates own first last) fun _ => simulates_pure _
  | pushFront key item => exact simulates_bind (pushFront_simulates own item) fun _ => simulates_pure _
  | trim key first last => exact simulates_bind (trim_simulates own first last) fun _ => simulates_pure _
  | range key first last => exact simulates_bind (range_simulates own first last) fun _ => simulates_pure _
  | pushBounded key item last => exact simulates_bind (pushBounded_simulates own item last) fun _ => simulates_pure _

end KeyValue

/-! ### Repetitions -/

/-- The first in a list that is there already. -/
def FirstRepeated {α : Type} (xs : List α) (x : α) : Prop :=
  ∃ before after, xs = before ++ x :: after ∧ before.Nodup ∧ x ∈ before

namespace FirstRepeated

variable {α : Type} {xs : List α} {x y : α}

theorem mem (h : FirstRepeated xs x) : x ∈ xs := by
  obtain ⟨before, after, rfl, -, -⟩ := h
  exact List.mem_append_right before List.mem_cons_self

theorem not_nodup (h : FirstRepeated xs x) : ¬ xs.Nodup := by
  obtain ⟨before, after, rfl, -, earlier⟩ := h
  intro apart
  exact (List.nodup_append.mp apart).2.2 x earlier x List.mem_cons_self rfl

/-- A list without repetitions ends before what comes up in it again. -/
theorem eq_of_longer {before between after after' : List α} (apart : (before ++ between).Nodup) (earlier : x ∈ before)
    (rest : x :: after = between ++ y :: after') : x = y := by
  cases between with
  | nil =>
    cases rest
    rfl
  | cons z between =>
    obtain ⟨rfl, -⟩ := List.cons_eq_cons.mp rest
    exact absurd rfl ((List.nodup_append.mp apart).2.2 x earlier x List.mem_cons_self)

theorem unique (h : FirstRepeated xs x) (h' : FirstRepeated xs y) : x = y := by
  obtain ⟨before, after, rfl, apart, earlier⟩ := h
  obtain ⟨before', after', same, apart', earlier'⟩ := h'
  rcases List.append_eq_append_iff.mp same with ⟨between, rfl, rest⟩ | ⟨between, rfl, rest⟩
  · exact eq_of_longer apart' earlier rest
  · exact (eq_of_longer apart earlier' rest).symm

end FirstRepeated

namespace Peripheral

open KeyValue

variable {owner key : String} {io : IoMap} {p q : Peripheral} {hooks hooks' : Hooks World}

theorem keyPart_injective (h : p.keyPart = q.keyPart) : p = q := by
  cases p with
  | device d =>
    cases q with
    | device e => cases d <;> cases e <;> first | rfl | exact absurd h (by decide)
    | _ => cases d <;> exact absurd h (by decide)
  | _ =>
    cases q with
    | device e => cases e <;> exact absurd h (by decide)
    | _ => first | rfl | exact absurd h (by decide)

theorem key_injective (h : p.key owner = q.key owner) : p = q := by
  have chars : (owner ++ ":").toList ++ p.keyPart.toList = (owner ++ ":").toList ++ q.keyPart.toList := by
    have lists := congrArg String.toList h
    simpa [Peripheral.key] using lists
  exact keyPart_injective (String.toList_inj.mp (List.append_cancel_left chars))

/-- A peripheral leaves the entries at keys where it does not work. -/
theorem handler_keeps_entry (apart : ∀ q ∈ p.uses, q.key owner ≠ key) (entry : Option Value) (a v : UInt16) :
    Keeps (fun b : Backing World => b.world.store[key]? = entry) (handler owner io p a v) := by
  intro b same
  have own : ∀ q ∈ p.uses, Respects (q.key owner) (Fixed key entry) := fun q used => fixed_respects (apart q used)
  have after : Matches (Backing.Alike Eq (World.Alike b.world.clock (Fixed key entry)))
      (handler owner io p a v b) (handler owner io p a v b) :=
    handler_simulates Memory.indistinct_eq own a v b b ⟨rfl, rfl, rfl, rfl, rfl, same⟩
  exact after.endState.2.store.2

/-! ### Addresses -/

theorem mem_all (p : Peripheral) : p ∈ all := by
  cases p with
  | device d => cases d <;> decide
  | _ => decide

/-- The stores that are hooked are those at the addresses of the peripherals, which are all different. -/
structure Binds (owner : String) (io : IoMap) (ps : List Peripheral) (hooks : Hooks World) : Prop where
  read : ∀ a, hooks.read a = none
  bound : ∀ a hook, hooks.write a = some hook → ∃ p ∈ ps, a = p.address io ∧ hook = handler owner io p
  binds : ∀ p ∈ ps, hooks.write (p.address io) = some (handler owner io p)
  apart : (ps.map (address io)).Nodup

theorem Binds.bindWrite {ps : List Peripheral} (old : Binds owner io ps hooks)
    (h : hooks.bindWrite (p.address io) (handler owner io p) = .ok hooks') : Binds owner io (p :: ps) hooks' := by
  obtain ⟨free, rfl⟩ := Hooks.bindWrite_eq_ok.mp h
  have fresh : ∀ q ∈ ps, q.address io ≠ p.address io := by
    intro q member same
    cases (same ▸ old.binds q member).symm.trans free
  constructor
  case read => exact old.read
  case bound =>
    intro a hook bound
    rcases (Hooks.entry_eq_some free).mp bound with before | ⟨same, rfl⟩
    · obtain ⟨q, member, found⟩ := old.bound a hook before
      exact ⟨q, List.mem_cons_of_mem p member, found⟩
    · exact ⟨p, List.mem_cons_self, same, rfl⟩
  case binds =>
    intro q member
    rcases List.mem_cons.mp member with rfl | member
    · exact if_pos rfl
    · exact (if_neg (fresh q member)).trans (old.binds q member)
  case apart =>
    refine List.nodup_cons.mpr ⟨fun member => ?_, old.apart⟩
    obtain ⟨q, member, same⟩ := List.mem_map.mp member
    exact fresh q member same

theorem install_binds_all (h : install owner io = .ok hooks) : Binds owner io all.reverse hooks := by
  -- The hooks of those that are already bound are what the fold carries.
  have bound (ps done : List Peripheral) (before : Hooks World) (old : Binds owner io done before)
      (h : ps.foldlM (fun hooks p => hooks.bindWrite (p.address io) (handler owner io p)) before = .ok hooks) :
      Binds owner io (ps.reverse ++ done) hooks := by
    induction ps generalizing before done with
    | nil =>
      cases h
      exact old
    | cons p rest ih =>
      obtain ⟨after, bound, h⟩ := except_bind_ok h
      rw [List.reverse_cons, List.append_assoc]
      exact ih (p :: done) after (old.bindWrite bound) h
  have start : Binds owner io [] .empty := ⟨fun _ => rfl, nofun, nofun, List.nodup_nil⟩
  exact List.append_nil all.reverse ▸ bound all [] .empty start h

section Installed

variable (h : install owner io = .ok hooks)
include h

theorem install_binds (p : Peripheral) : hooks.write (p.address io) = some (handler owner io p) :=
  (install_binds_all h).binds p (List.mem_reverse.mpr p.mem_all)

theorem install_bound {a : UInt16} {hook : WriteHook World} (bound : hooks.write a = some hook) :
    ∃ p : Peripheral, a = p.address io ∧ hook = handler owner io p := by
  obtain ⟨p, -, found⟩ := (install_binds_all h).bound a hook bound
  exact ⟨p, found⟩

theorem address_injective (same : p.address io = q.address io) : p = q :=
  List.inj_on_of_nodup_map (install_binds_all h).apart (List.mem_reverse.mpr p.mem_all)
    (List.mem_reverse.mpr q.mem_all) same

end Installed

/-! ### Conflicts -/

/-- No two peripherals have the same address. -/
def Distinct (io : IoMap) : Prop := (all.map (address io)).Nodup

instance (io : IoMap) : Decidable (Distinct io) := inferInstanceAs (Decidable (List.Nodup _))

variable {f : Fault}

theorem Binds.refused {ps : List Peripheral} (old : Binds owner io ps hooks)
    (h : hooks.bindWrite (p.address io) (handler owner io p) = .error f) :
    f = .hookConflict (p.address io) ∧ ∃ q ∈ ps, q.address io = p.address io := by
  obtain ⟨taken, rfl⟩ := Hooks.bindWrite_eq_error.mp h
  obtain ⟨hook, bound⟩ := Option.isSome_iff_exists.mp taken
  obtain ⟨q, member, same, -⟩ := old.bound _ hook bound
  exact ⟨rfl, q, member, same.symm⟩

theorem Binds.fold_refused {ps done : List Peripheral} (old : Binds owner io done hooks)
    (h : ps.foldlM (fun hooks p => hooks.bindWrite (p.address io) (handler owner io p)) hooks = .error f) :
    ∃ a, f = .hookConflict a ∧ FirstRepeated ((done.reverse ++ ps).map (address io)) a := by
  induction ps generalizing hooks done with
  | nil => cases h
  | cons p rest ih =>
    rw [List.foldlM_cons] at h
    cases bound : hooks.bindWrite (p.address io) (handler owner io p) with
    | ok after =>
      rw [bound] at h
      have conflict := ih (old.bindWrite bound) h
      rwa [List.reverse_cons, List.append_assoc] at conflict
    | error e =>
      rw [bound] at h
      cases h
      obtain ⟨rfl, q, member, same⟩ := old.refused bound
      refine ⟨_, rfl, done.reverse.map (address io), rest.map (address io), List.map_append, ?_, ?_⟩
      · rw [List.map_reverse, List.nodup_reverse]
        exact old.apart
      · exact List.mem_map.mpr ⟨q, List.mem_reverse.mpr member, same⟩

theorem install_error (h : install owner io = .error f) :
    ∃ a, f = .hookConflict a ∧ FirstRepeated (all.map (address io)) a := by
  have start : Binds owner io [] .empty := ⟨fun _ => rfl, nofun, nofun, List.nodup_nil⟩
  exact start.fold_refused h

theorem distinct_of_install (h : install owner io = .ok hooks) : Distinct io := by
  have apart := (install_binds_all h).apart
  rwa [List.map_reverse, List.nodup_reverse] at apart

end Peripheral

/-- An instance is made if no two peripherals have one address. Otherwise the first address that is there already is
refused. -/
theorem Instance.build_or_conflict (name : String) (config : InstanceConfig) :
    (Peripheral.Distinct config.io ∧ ∃ cpu, Instance.build name config = .ok cpu) ∨
      ∃ a, FirstRepeated (Peripheral.all.map (Peripheral.address config.io)) a ∧
        Instance.build name config = .error (.hookConflict a) := by
  unfold Instance.build Board.build
  split
  · next hooks installed => exact .inl ⟨Peripheral.distinct_of_install installed, _, rfl⟩
  · next f refused =>
    obtain ⟨a, rfl, repeated⟩ := Peripheral.install_error refused
    exact .inr ⟨a, repeated, rfl⟩

end Msp430
