import Mathlib.Data.List.Induction
import Mathlib.Tactic.IntervalCases
import Transmogr.Fallible

/-! Maps filled, or changed, by a loop over the entries of a list. -/
namespace Transmogr.Maps

variable {κ α β : Type} [Ord κ] [Std.TransOrd κ] [Std.LawfulEqOrd κ]

/-- `for x := range xs { if value, ok := f(x); ok { m[key(x)] = value } }` -/
def fill (key : α → κ) (f : α → Option β) (xs : List α) : Std.ExtTreeMap κ β :=
  xs.foldl (fun map x => match f x with
    | none => map
    | some value => map.insert (key x) value) ∅

/-- The list of keys is ordered, so it depends on which keys there are and on nothing else. -/
theorem keys_congr {map : Std.ExtTreeMap κ α} {map' : Std.ExtTreeMap κ β}
    (same : ∀ k, k ∈ map ↔ k ∈ map') : map.keys = map'.keys := by
  refine List.Perm.eq_of_pairwise ?_ Std.ExtTreeMap.ordered_keys Std.ExtTreeMap.ordered_keys ?_
  · intro a b _ _ less greater
    exact absurd (less.symm.trans (Std.OrientedCmp.gt_of_lt greater)) nofun
  · refine (List.perm_ext_iff_of_nodup Std.ExtTreeMap.nodup_keys Std.ExtTreeMap.nodup_keys).mpr ?_
    intro k
    rw [Std.ExtTreeMap.mem_keys, Std.ExtTreeMap.mem_keys, same]

omit [Std.LawfulEqOrd κ] in
theorem getElem?_fill_append (key : α → κ) (f : α → Option β) (xs : List α) (x : α) (k : κ) :
    (fill key f (xs ++ [x]))[k]? =
      if compare (key x) k = .eq then (f x).or (fill key f xs)[k]? else (fill key f xs)[k]? := by
  unfold fill
  rw [List.foldl_append, List.foldl_cons, List.foldl_nil]
  cases f x with
  | none => simp
  | some value => simp [Std.ExtTreeMap.getElem?_insert]

/-- The map holds what the elements of a key insert, if they agree. -/
theorem getElem?_fill {key : α → κ} {f : α → Option β} {xs : List α}
    (agree : ∀ x ∈ xs, ∀ y ∈ xs, key x = key y → f x = f y) {k : κ} {value : β} :
    (fill key f xs)[k]? = some value ↔ ∃ x ∈ xs, key x = k ∧ f x = some value := by
  induction xs using List.reverseRecOn with
  | nil => simp [fill]
  | append_singleton xs x ih =>
    have earlier := ih fun y mem z mem' =>
      agree y (List.mem_append_left _ mem) z (List.mem_append_left _ mem')
    simp only [getElem?_fill_append, Std.LawfulEqOrd.compare_eq_iff_eq, List.mem_append,
      List.mem_singleton, or_and_right, exists_or, exists_eq_left, ← earlier]
    by_cases here : key x = k
    · rw [if_pos (Std.LawfulEqOrd.compare_eq_iff_eq.mpr here)]
      cases inserts : f x with
      | none => simp
      | some inserted =>
        -- what was there before is what is inserted
        refine ⟨fun found => .inr ⟨here, found⟩, fun found => ?_⟩
        rcases found with had | ⟨-, found⟩
        · obtain ⟨y, mem, same, holds⟩ := earlier.mp had
          rw [Option.some_or, ← inserts, ← holds]
          exact agree x (by simp) y (List.mem_append_left _ mem) (here.trans same.symm)
        · exact found
    · simp [here]

theorem mem_fill {key : α → κ} {f : α → β} {xs : List α} {x : α} (mem : x ∈ xs) :
    key x ∈ fill key (fun x => some (f x)) xs := by
  rw [Std.ExtTreeMap.mem_iff_isSome_getElem?]
  induction xs using List.reverseRecOn with
  | nil => cases mem
  | append_singleton xs last ih =>
    rw [getElem?_fill_append]
    split
    · rfl
    · next other =>
      rcases List.mem_append.mp mem with earlier | here
      · exact ih earlier
      · cases List.mem_singleton.mp here
        exact absurd Std.ReflOrd.compare_self other

/-- `for k, a := range entries` on a map. -/
theorem getElem?_fill_toList {entries : Std.ExtTreeMap κ α} {f : κ × α → Option β} {k : κ} :
    (fill Prod.fst f entries.toList)[k]? = entries[k]?.bind fun a => f (k, a) := by
  have agree : ∀ x ∈ entries.toList, ∀ y ∈ entries.toList, x.1 = y.1 → f x = f y := by
    rintro ⟨key, a⟩ memA ⟨key', b⟩ memB same
    obtain rfl : key = key' := same
    rw [Std.ExtTreeMap.mem_toList_iff_getElem?_eq_some] at memA memB
    rw [Option.some.inj (memA.symm.trans memB)]
  apply Option.ext
  intro value
  rw [getElem?_fill agree, Option.bind_eq_some_iff]
  constructor
  · rintro ⟨⟨key, a⟩, mem, rfl, found⟩
    exact ⟨a, Std.ExtTreeMap.mem_toList_iff_getElem?_eq_some.mp mem, found⟩
  · rintro ⟨a, mem, found⟩
    exact ⟨(k, a), Std.ExtTreeMap.mem_toList_iff_getElem?_eq_some.mpr mem, rfl, found⟩

/-- `for i, x := range xs { m[x] = i }` finds each element of a list without repetitions. -/
theorem getElem?_indexes {xs : List κ} (nodup : xs.Nodup) {x : κ} {index : Nat} :
    (xs.zipIdx.foldl (fun map entry => map.insert entry.1 entry.2)
      (∅ : Std.ExtTreeMap κ Nat))[x]? = some index ↔ xs[index]? = some x := by
  have agree : ∀ e ∈ xs.zipIdx, ∀ e' ∈ xs.zipIdx, e.1 = e'.1 → some e.2 = some e'.2 := by
    rintro ⟨x, index⟩ mem ⟨x', index'⟩ mem' rfl
    rw [List.mem_zipIdx_iff_getElem?] at mem mem'
    have bound := (List.getElem?_eq_some_iff.mp mem).1
    exact congrArg some ((List.getElem?_inj bound nodup).mp (mem.trans mem'.symm))
  refine (getElem?_fill agree).trans ?_
  constructor
  · rintro ⟨⟨x', index'⟩, mem, rfl, same⟩
    cases same
    exact List.mem_zipIdx_iff_getElem?.mp mem
  · intro found
    exact ⟨(x, index), List.mem_zipIdx_iff_getElem?.mpr found, rfl, rfl⟩

section Replace

variable {γ ε : Type}

def replaceAt (f : κ → γ → β → Except ε β) (map : Std.ExtTreeMap κ β) (entry : κ × γ) :
    Except ε (Std.ExtTreeMap κ β) :=
  match map[entry.1]? with
  | none => .ok map
  | some value => do
    let replaced ← f entry.1 entry.2 value
    return map.insert entry.1 replaced

/-- `for k, c := range entries { if v, ok := m[k]; ok { m[k] = f(k, c, v) } }` -/
def replaceEach (f : κ → γ → β → Except ε β) (entries : List (κ × γ)) (map : Std.ExtTreeMap κ β) :
    Except ε (Std.ExtTreeMap κ β) :=
  entries.foldlM (replaceAt f) map

variable {f : κ → γ → β → Except ε β} {entries : List (κ × γ)} {map result : Std.ExtTreeMap κ β}

theorem replaceAt_of_ne {entry : κ × γ} {k : κ} (ran : replaceAt f map entry = .ok result)
    (other : entry.1 ≠ k) : result[k]? = map[k]? := by
  unfold replaceAt at ran
  split at ran
  · cases ran
    rfl
  · obtain ⟨replaced, -, ran⟩ := Fallible.bind_eq_ok.mp ran
    cases ran
    rw [Std.ExtTreeMap.getElem?_insert, if_neg (other ∘ Std.LawfulEqOrd.compare_eq_iff_eq.mp)]

theorem replaceEach_of_absent {k : κ} (ran : replaceEach f entries map = .ok result)
    (absent : ∀ entry ∈ entries, entry.1 ≠ k) : result[k]? = map[k]? :=
  Fallible.foldlM_rel (R := fun before after => after[k]? = before[k]?) (fun _ => rfl)
    (fun first second => second.trans first)
    (fun entry mem _ _ stepped => replaceAt_of_ne stepped (absent entry mem)) ran

theorem replaceEach_of_mem {k : κ} {c : γ} (distinct : entries.Pairwise fun a b => a.1 ≠ b.1)
    (ran : replaceEach f entries map = .ok result) (mem : (k, c) ∈ entries) :
    match map[k]? with
    | none => result[k]? = none
    | some value => ∃ replaced, f k c value = .ok replaced ∧ result[k]? = some replaced := by
  induction entries generalizing map with
  | nil => cases mem
  | cons entry rest ih =>
    obtain ⟨apart, distinctRest⟩ := List.pairwise_cons.mp distinct
    obtain ⟨next, stepped, ranRest⟩ := Fallible.bind_eq_ok.mp ran
    cases List.mem_cons.mp mem with
    | inr later =>
      have kept := replaceAt_of_ne stepped (apart (k, c) later)
      rw [← kept]
      exact ih distinctRest ranRest later
    | inl here =>
      subst here
      -- the rest of the loop leaves the key alone
      rw [replaceEach_of_absent ranRest fun entry inside => (apart entry inside).symm]
      unfold replaceAt at stepped
      cases present : map[k]? with
      | none =>
        simp only [present] at stepped
        cases stepped
        exact present
      | some value =>
        simp only [present] at stepped
        obtain ⟨replaced, made, stepped⟩ := Fallible.bind_eq_ok.mp stepped
        cases stepped
        exact ⟨replaced, made, Std.ExtTreeMap.getElem?_insert_self⟩

theorem exists_replaceEach (distinct : entries.Pairwise fun a b => a.1 ≠ b.1)
    (each : ∀ entry ∈ entries, ∀ value, map[entry.1]? = some value →
      ∃ replaced, f entry.1 entry.2 value = .ok replaced) :
    ∃ result, replaceEach f entries map = .ok result := by
  induction entries generalizing map with
  | nil => exact ⟨map, rfl⟩
  | cons entry rest ih =>
    obtain ⟨apart, distinctRest⟩ := List.pairwise_cons.mp distinct
    obtain ⟨first, others⟩ := List.forall_mem_cons.mp each
    have head : ∃ next, replaceAt f map entry = .ok next := by
      unfold replaceAt
      cases present : map[entry.1]? with
      | none => exact ⟨map, rfl⟩
      | some value =>
        obtain ⟨replaced, made⟩ := first value present
        exact ⟨_, Fallible.bind_eq_ok.mpr ⟨replaced, made, rfl⟩⟩
    obtain ⟨next, stepped⟩ := head
    have later : ∀ other ∈ rest, ∀ value, next[other.1]? = some value →
        ∃ replaced, f other.1 other.2 value = .ok replaced := by
      intro other inside value present
      rw [replaceAt_of_ne stepped (apart other inside)] at present
      exact others other inside value present
    obtain ⟨result, ran⟩ := ih distinctRest later
    exact ⟨result, Fallible.bind_eq_ok.mpr ⟨next, stepped, ran⟩⟩

/-- The order in which the entries are visited does not matter. -/
theorem replaceEach_of_perm {entries' : List (κ × γ)}
    (distinct : entries.Pairwise fun a b => a.1 ≠ b.1) (order : entries'.Perm entries)
    (ran : replaceEach f entries map = .ok result) : replaceEach f entries' map = .ok result := by
  have distinct' : entries'.Pairwise fun a b => a.1 ≠ b.1 :=
    (order.pairwise_iff fun differ => differ.symm).mpr distinct
  obtain ⟨result', ran'⟩ : ∃ result', replaceEach f entries' map = .ok result' := by
    apply exists_replaceEach distinct'
    intro entry mem value present
    have replaced := replaceEach_of_mem distinct ran (order.mem_iff.mp mem)
    simp only [present] at replaced
    exact replaced.imp fun _ both => both.1
  rw [ran']
  refine congrArg Except.ok (Std.ExtTreeMap.ext_getElem? fun k => ?_)
  by_cases visited : ∃ c, (k, c) ∈ entries
  · obtain ⟨c, mem⟩ := visited
    have here := replaceEach_of_mem distinct ran mem
    have there := replaceEach_of_mem distinct' ran' (order.mem_iff.mpr mem)
    cases present : map[k]? with
    | none =>
      simp only [present] at here there
      rw [here, there]
    | some value =>
      simp only [present] at here there
      obtain ⟨replaced, made, placed⟩ := here
      obtain ⟨replaced', made', placed'⟩ := there
      cases made.symm.trans made'
      rw [placed, placed']
  · have absent : ∀ entry ∈ entries, entry.1 ≠ k := by
      rintro ⟨other, c⟩ mem rfl
      exact visited ⟨c, mem⟩
    rw [replaceEach_of_absent ran absent,
      replaceEach_of_absent ran' fun entry mem => absent entry (order.mem_iff.mp mem)]

end Replace

end Transmogr.Maps
