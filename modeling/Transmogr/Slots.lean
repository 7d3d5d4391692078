import Mathlib.Data.List.Basic
import Mathlib.Logic.Function.Basic
import Transmogr.Grouping

/-! Writes to a store of slots. A write replaces the contents of one slot by a function of what is
in that slot, so writes to different slots can be made in any order. -/
namespace Transmogr.Slots

variable {κ σ : Type} [DecidableEq κ]

structure Write (κ σ : Type) where
  slot : κ
  act : σ → σ

def Write.apply (write : Write κ σ) (store : κ → σ) : κ → σ :=
  Function.update store write.slot (write.act (store write.slot))

def run (store : κ → σ) (writes : List (Write κ σ)) : κ → σ :=
  writes.foldl (fun store write => write.apply store) store

/-- No slot is written twice. -/
def Apart (writes : List (Write κ σ)) : Prop :=
  writes.Pairwise fun write later => write.slot ≠ later.slot

variable {store : κ → σ} {writes later : List (Write κ σ)} {write : Write κ σ} {slot : κ}

theorem run_append : run store (writes ++ later) = run (run store writes) later :=
  List.foldl_append

theorem apply_of_ne (other : write.slot ≠ slot) : write.apply store slot = store slot :=
  Function.update_of_ne other.symm _ _

theorem apply_self : write.apply store write.slot = write.act (store write.slot) :=
  Function.update_self _ _ _

theorem apply_of_keeps (keeps : ∀ contents, write.act contents = contents) :
    write.apply store = store := by
  rw [Write.apply, keeps, Function.update_eq_self]

theorem run_of_absent (absent : ∀ write ∈ writes, write.slot ≠ slot) :
    run store writes slot = store slot := by
  induction writes generalizing store with
  | nil => rfl
  | cons first rest ih =>
    obtain ⟨head, tail⟩ := List.forall_mem_cons.mp absent
    exact (ih tail).trans (apply_of_ne head)

theorem run_of_mem (apart : Apart writes) (mem : write ∈ writes) :
    run store writes write.slot = write.act (store write.slot) := by
  induction writes generalizing store with
  | nil => cases mem
  | cons first rest ih =>
    obtain ⟨head, tail⟩ := List.pairwise_cons.mp apart
    rcases List.mem_cons.mp mem with rfl | inRest
    · have absent : ∀ other ∈ rest, other.slot ≠ write.slot := fun other mem => (head other mem).symm
      exact (run_of_absent absent).trans apply_self
    · have untouched : first.apply store write.slot = store write.slot := apply_of_ne (head write inRest)
      exact (ih tail inRest).trans (congrArg write.act untouched)

/-- The contents depend on which writes are made, not on their order. -/
theorem run_congr (apart : Apart writes) (apart' : Apart later)
    (same : ∀ write, write ∈ writes ↔ write ∈ later) : run store writes = run store later := by
  funext slot
  by_cases written : ∃ write ∈ writes, write.slot = slot
  · obtain ⟨write, mem, rfl⟩ := written
    rw [run_of_mem apart mem, run_of_mem apart' ((same write).mp mem)]
  · have absent : ∀ write ∈ writes, write.slot ≠ slot := fun write mem at_slot =>
      written ⟨write, mem, at_slot⟩
    rw [run_of_absent absent, run_of_absent fun write mem => absent write ((same write).mpr mem)]

theorem run_perm (apart : Apart writes) (perm : writes.Perm later) :
    run store writes = run store later :=
  run_congr apart (perm.pairwise apart fun differ => differ.symm) fun _ => perm.mem_iff

omit [DecidableEq κ] in
theorem apart_perm (perm : writes.Perm later) : Apart writes ↔ Apart later :=
  perm.pairwise_iff fun differ => differ.symm

section Parallel

/-- One write to the same slot each, or none. -/
def Parallel (writes later : List (Write κ σ)) : Prop :=
  (writes = [] ∧ later = []) ∨ ∃ slot act act', writes = [⟨slot, act⟩] ∧ later = [⟨slot, act'⟩]

variable {α : Type} {xs : List α} {f g : α → List (Write κ σ)}

omit [DecidableEq κ] in
theorem Parallel.symm (parallel : Parallel writes later) : Parallel later writes := by
  obtain ⟨nothing, nothing'⟩ | ⟨slot, act, act', single, single'⟩ := parallel
  · exact .inl ⟨nothing', nothing⟩
  · exact .inr ⟨slot, act', act, single', single⟩

omit [DecidableEq κ] in
theorem Parallel.counterpart (parallel : Parallel writes later) (mem : write ∈ writes) :
    (∃ write' ∈ later, write'.slot = write.slot) ∧ ∀ write' ∈ later, write'.slot = write.slot := by
  obtain ⟨rfl, -⟩ | ⟨slot, act, act', rfl, rfl⟩ := parallel
  · cases mem
  · obtain rfl := List.mem_singleton.mp mem
    simp

omit [DecidableEq κ] in
theorem apart_flatMap_iff (parallel : ∀ x ∈ xs, Parallel (f x) (g x)) :
    Apart (xs.flatMap f) ↔ Apart (xs.flatMap g) := by
  have slots : (xs.flatMap f).map (·.slot) = (xs.flatMap g).map (·.slot) := by
    rw [List.map_flatMap, List.map_flatMap]
    apply List.flatMap_congr
    intro x mem
    obtain ⟨nothing, nothing'⟩ | ⟨slot, act, act', single, single'⟩ := parallel x mem
    · rw [nothing, nothing']
    · rw [single, single']
      rfl
  have nodup : ∀ writes : List (Write κ σ), Apart writes ↔ (writes.map (·.slot)).Nodup :=
    fun writes => List.pairwise_map.symm
  rw [nodup, nodup, slots]

/-- Writes to the same slots agree if and only if each does what its counterpart does to the contents
at the start. -/
theorem run_flatMap_eq_iff (parallel : ∀ x ∈ xs, Parallel (f x) (g x)) (apart : Apart (xs.flatMap g)) :
    run store (xs.flatMap f) = run store (xs.flatMap g) ↔
      ∀ x ∈ xs, ∀ write ∈ f x, ∀ write' ∈ g x,
        write.act (store write.slot) = write'.act (store write.slot) := by
  have apart' := (apart_flatMap_iff parallel).mpr apart
  have ran : ∀ x ∈ xs, ∀ write ∈ f x, ∀ write' ∈ g x,
      run store (xs.flatMap f) write.slot = write.act (store write.slot) ∧
        run store (xs.flatMap g) write.slot = write'.act (store write.slot) := by
    intro x mem write inF write' inG
    have after := @run_of_mem _ _ _ store _ _ apart (List.mem_flatMap.mpr ⟨x, mem, inG⟩)
    rw [((parallel x mem).counterpart inF).2 write' inG] at after
    exact ⟨run_of_mem apart' (List.mem_flatMap.mpr ⟨x, mem, inF⟩), after⟩
  constructor
  · intro same x mem write inF write' inG
    obtain ⟨left, right⟩ := ran x mem write inF write' inG
    rw [← left, ← right, same]
  · intro agree
    funext slot
    by_cases written : ∃ x ∈ xs, ∃ write ∈ f x, write.slot = slot
    · obtain ⟨x, mem, write, inF, rfl⟩ := written
      obtain ⟨write', inG, -⟩ := ((parallel x mem).counterpart inF).1
      obtain ⟨left, right⟩ := ran x mem write inF write' inG
      rw [left, right, agree x mem write inF write' inG]
    · rw [run_of_absent, run_of_absent]
      · intro write' inWrites at_slot
        obtain ⟨x, mem, inG⟩ := List.mem_flatMap.mp inWrites
        obtain ⟨write, inF, same⟩ := ((parallel x mem).symm.counterpart inG).1
        exact written ⟨x, mem, write, inF, same.trans at_slot⟩
      · intro write inWrites at_slot
        obtain ⟨x, mem, inF⟩ := List.mem_flatMap.mp inWrites
        exact written ⟨x, mem, write, inF, at_slot⟩

end Parallel

section Last

variable {α ι : Type} [DecidableEq ι] {ident : α → ι} {toWrite : α → Write κ σ} {xs : List α}

/-- A slot sees its own writes alone. -/
theorem run_map (slot : κ) :
    run store (xs.map toWrite) slot = (xs.filter fun x => (toWrite x).slot = slot).foldl
      (fun contents x => (toWrite x).act contents) (store slot) := by
  induction xs generalizing store with
  | nil => rfl
  | cons x rest ih =>
    have tail := @ih ((toWrite x).apply store)
    by_cases here : (toWrite x).slot = slot
    · subst here
      rw [apply_self] at tail
      simpa [run] using tail
    · rw [apply_of_ne here] at tail
      simpa [run, here] using tail

theorem run_lastPerKey_of_absent (absent : ∀ x ∈ xs, (toWrite x).slot ≠ slot) :
    run store ((Grouping.lastPerKey ident xs).map toWrite) slot = store slot := by
  apply run_of_absent
  intro write mem
  obtain ⟨y, kept, rfl⟩ := List.mem_map.mp mem
  exact absent y (Grouping.mem_of_mem_lastPerKey kept)

variable (same : ∀ x ∈ xs, ∀ y ∈ xs, ident x = ident y ↔ (toWrite x).slot = (toWrite y).slot)

include same

omit [DecidableEq κ] in
theorem apart_lastPerKey : Apart ((Grouping.lastPerKey ident xs).map toWrite) := by
  rw [Apart, List.pairwise_map]
  refine (Grouping.lastPerKey_distinct ident xs).imp_of_mem ?_
  intro x y memX memY differ slots
  exact differ ((same x (Grouping.mem_of_mem_lastPerKey memX) y
    (Grouping.mem_of_mem_lastPerKey memY)).mpr slots)

theorem run_lastPerKey_of_mem {y : α} (kept : y ∈ Grouping.lastPerKey ident xs) :
    run store ((Grouping.lastPerKey ident xs).map toWrite) (toWrite y).slot =
      (toWrite y).act (store (toWrite y).slot) :=
  run_of_mem (apart_lastPerKey same) (List.mem_map_of_mem kept)

omit [DecidableEq κ] in
/-- The last element of each slot that is written. -/
theorem exists_last {z : α} (mem : z ∈ xs) :
    ∃ y ∈ Grouping.lastPerKey ident xs, (toWrite y).slot = (toWrite z).slot := by
  obtain ⟨y, kept, alike⟩ := @Grouping.exists_mem_lastPerKey _ _ _ ident _ _ mem
  exact ⟨y, kept, (same y (Grouping.mem_of_mem_lastPerKey kept) z mem).mp alike⟩

theorem run_of_mem_lastPerKey {y : α} (kept : y ∈ Grouping.lastPerKey ident xs) :
    run store (xs.map toWrite) (toWrite y).slot =
      (toWrite y).act ((xs.filter fun x => ident x = ident y).dropLast.foldl
        (fun contents x => (toWrite x).act contents) (store (toWrite y).slot)) := by
  have slots : (xs.filter fun x => (toWrite x).slot = (toWrite y).slot) =
      xs.filter fun x => ident x = ident y := by
    apply List.filter_congr
    intro x mem
    exact decide_eq_decide.mpr (same x mem y (Grouping.mem_of_mem_lastPerKey kept)).symm
  rw [run_map, slots, Grouping.filter_of_mem_lastPerKey kept, List.foldl_concat, List.dropLast_concat]

/-- The last writes alone leave what all of them leave, up to `R`, if and only if in each slot the
last write ends alike with and without the earlier ones. -/
theorem run_lastPerKey_iff {R : κ → σ → σ → Prop} (refl : ∀ slot contents, R slot contents contents) :
    (∀ slot, R slot (run store (xs.map toWrite) slot)
        (run store ((Grouping.lastPerKey ident xs).map toWrite) slot)) ↔
      ∀ y ∈ Grouping.lastPerKey ident xs, R (toWrite y).slot
        ((toWrite y).act ((xs.filter fun x => ident x = ident y).dropLast.foldl
          (fun contents x => (toWrite x).act contents) (store (toWrite y).slot)))
        ((toWrite y).act (store (toWrite y).slot)) := by
  constructor
  · intro agree y kept
    have here := agree (toWrite y).slot
    rwa [run_of_mem_lastPerKey same kept, run_lastPerKey_of_mem same kept] at here
  · intro hides slot
    by_cases written : ∃ z ∈ xs, (toWrite z).slot = slot
    · obtain ⟨z, mem, rfl⟩ := written
      obtain ⟨y, kept, here⟩ := exists_last same mem
      rw [← here, run_of_mem_lastPerKey same kept, run_lastPerKey_of_mem same kept]
      exact hides y kept
    · have absent : ∀ z ∈ xs, (toWrite z).slot ≠ slot := fun z mem at_slot => written ⟨z, mem, at_slot⟩
      have untouched : run store (xs.map toWrite) slot = store slot :=
        run_of_absent (List.forall_mem_map.mpr absent)
      rw [untouched, run_lastPerKey_of_absent absent]
      exact refl slot _

end Last

end Transmogr.Slots
