import Lox.Growable
import Mathlib.Algebra.Ring.Int.Defs
import Mathlib.Algebra.Ring.Nat

namespace Lox.Growable

variable {α : Type} [Inhabited α]

omit [Inhabited α] in
theorem length_toList (a : Growable α) : a.toList.length = a.size := by
  have := a.size_le
  simp only [toList, List.length_take, Array.length_toList]
  omega

omit [Inhabited α] in
theorem get?_eq (a : Growable α) (i : Nat) : a.get? i = a.toList[i]? := by
  simp only [get?, toList, List.getElem?_take, Array.getElem?_toList]

omit [Inhabited α] in
theorem toList_empty : (empty : Growable α).toList = [] := rfl

theorem toList_growTo (c : Nat) (a : Growable α) : (a.growTo c).toList = a.toList := by
  have := a.size_le
  simp only [toList, growTo, Array.toList_append]
  rw [List.take_append_of_le_length (by simpa using this)]

omit [Inhabited α] in
theorem take_set_size {xs : List α} {n : Nat} (h : n < xs.length) (v : α) :
    (xs.set n v).take (n + 1) = xs.take n ++ [v] := by
  apply List.ext_getElem?
  intro i
  rw [List.getElem?_take, List.getElem?_set, List.getElem?_append, List.getElem?_take]
  simp only [List.length_take]
  have : min n xs.length = n := by omega
  rw [this]
  by_cases hi : i < n
  · rw [if_pos (by omega), if_neg (by omega), if_pos hi, if_pos hi]
  · by_cases hn : i = n
    · subst hn
      simp [h]
    · rw [if_neg (by omega), if_neg hi]
      have : i - n = i - n - 1 + 1 := by omega
      rw [this]
      rfl

theorem toList_push (a : Growable α) (v : α) : (a.push v).toList = a.toList ++ [v] := by
  have hle := a.size_le
  unfold push
  split
  · next h =>
    simp only [toList, Array.toList_set]
    exact take_set_size (by simpa using h) v
  · next h =>
    simp only [toList, Array.toList_set]
    rw [take_set_size]
    · simp only [Array.toList_append]
      rw [List.take_append_of_le_length (by simpa using hle)]
    · simp only [Array.length_toList, Array.size_append, Array.size_replicate, nextCapacity]
      split <;> omega

omit [Inhabited α] in
theorem toList_set (a : Growable α) (i : Nat) (v : α) : (a.set i v).toList = a.toList.set i v := by
  unfold set
  split
  · simp only [toList, Array.toList_set, List.take_set]
  · next h =>
    rw [List.set_eq_of_length_le]
    rw [length_toList]
    omega

end Lox.Growable

namespace Lox.Growable

variable {α : Type}

/-- What an array comes to: its elements, and the number of its slots. -/
structure Outline (α : Type) where
  elements : List α
  capacity : Nat

structure Growth (α : Type) where
  elements : List α
  before : Nat
  after : Nat

inductive Operation (α : Type) where
  | append (v : α)
  | set (i : Int) (v : α)
  | pop
  | truncate (n : Int)
  | reset
  | get (i : Int)
  | last
  | items

inductive Response (α : Type) where
  | done
  | index (i : Nat)
  | element (v : α)
  | elements (vs : List α)

def note (a : Growable α) (before after : Nat) : StateM (List (Growth α)) Unit :=
  modify (· ++ [⟨a.toList, before, after⟩])

variable [Inhabited α]

namespace Operation

def onArray : Operation α → Growable α × List (Growth α) →
    Option (Response α × Growable α × List (Growth α))
  | append v, (a, growths) =>
    let ((i, a), growths) := (a.append note v).run growths
    some (.index i, a, growths)
  | set i v, (a, growths) => do
    let a ← a.set? (← place? i) v
    some (.done, a, growths)
  | pop, (a, growths) => do
    let (v, a) ← a.pop?
    some (.element v, a, growths)
  | truncate n, (a, growths) => do
    let a ← a.truncate? (← place? n)
    some (.done, a, growths)
  | reset, _ => some (.done, .empty, [])
  | get i, (a, growths) => do
    let v ← a.get? (← place? i)
    some (.element v, a, growths)
  | last, (a, growths) => do
    let v ← a.last?
    some (.element v, a, growths)
  | items, (a, growths) => some (.elements a.toList, a, growths)

def onOutline : Operation α → Outline α × List (Growth α) →
    Option (Response α × Outline α × List (Growth α))
  | append v, (⟨xs, c⟩, growths) =>
    if xs.length = c then
      some (.index xs.length, ⟨xs ++ [v], nextCapacity c⟩, growths ++ [⟨xs, c, nextCapacity c⟩])
    else some (.index xs.length, ⟨xs ++ [v], c⟩, growths)
  | set i v, (⟨xs, c⟩, growths) =>
    if 0 ≤ i ∧ i < xs.length then some (.done, ⟨xs.set i.toNat v, c⟩, growths) else none
  | pop, (⟨xs, c⟩, growths) =>
    xs.getLast?.map fun v => (.element v, ⟨xs.dropLast, c⟩, growths)
  | truncate n, (⟨xs, c⟩, growths) =>
    if 0 ≤ n ∧ n ≤ c then
      some (.done, ⟨xs.take n.toNat ++ List.replicate (n.toNat - xs.length) default, c⟩, growths)
    else none
  | reset, _ => some (.done, ⟨[], 0⟩, [])
  | get i, (⟨xs, c⟩, growths) =>
    if 0 ≤ i then xs[i.toNat]?.map fun v => (.element v, ⟨xs, c⟩, growths) else none
  | last, (⟨xs, c⟩, growths) => xs.getLast?.map fun v => (.element v, ⟨xs, c⟩, growths)
  | items, (⟨xs, c⟩, growths) => some (.elements xs, ⟨xs, c⟩, growths)

def all {σ : Type} (step : Operation α → σ → Option (Response α × σ)) :
    List (Operation α) → σ → Option (List (Response α) × σ)
  | [], s => some ([], s)
  | op :: ops, s => do
    let (response, s) ← step op s
    let (responses, s) ← all step ops s
    some (response :: responses, s)

end Operation

structure Shows (a : Growable α) (o : Outline α) : Prop where
  slots : a.slots.toList =
    o.elements ++ List.replicate (o.capacity - o.elements.length) default
  size : a.size = o.elements.length
  length_le : o.elements.length ≤ o.capacity

namespace Shows

variable {a : Growable α} {xs : List α} {c : Nat}

theorem empty : Shows (Growable.empty : Growable α) ⟨[], 0⟩ :=
  ⟨rfl, rfl, Nat.le_refl 0⟩

theorem capacity (h : Shows a ⟨xs, c⟩) : a.capacity = c := by
  have hlen := congrArg List.length h.slots
  have hle := h.length_le
  simp only [Array.length_toList, List.length_append, List.length_replicate] at hlen hle
  rw [Growable.capacity, hlen]
  omega

theorem toList (h : Shows a ⟨xs, c⟩) : a.toList = xs := by
  rw [Growable.toList, h.slots, h.size, List.take_left]

theorem isFull_iff (h : Shows a ⟨xs, c⟩) : a.isFull = true ↔ xs.length = c := by
  rw [isFull, beq_iff_eq, h.size, show a.slots.size = c from h.capacity]

theorem get?_eq (h : Shows a ⟨xs, c⟩) (i : Nat) : a.get? i = xs[i]? := by
  rw [Growable.get?_eq, h.toList]

theorem last?_eq (h : Shows a ⟨xs, c⟩) : a.last? = xs.getLast? := by
  have hsize : a.size = xs.length := h.size
  rw [last?, h.get?_eq, hsize, List.getLast?_eq_getElem?]
  split
  · next h0 => rw [List.length_eq_zero_iff.mp h0]; rfl
  · rfl

theorem set_append_replicate (v : α) {n : Nat} (hn : 0 < n) :
    (xs ++ List.replicate n default).set xs.length v =
      xs ++ [v] ++ List.replicate (n - 1) default := by
  obtain ⟨n, rfl⟩ : ∃ m, n = m + 1 := ⟨n - 1, by omega⟩
  rw [List.set_append_right _ _ (Nat.le_refl _), Nat.sub_self, List.replicate_succ,
    List.set_cons_zero, Nat.add_sub_cancel, List.append_assoc, List.singleton_append]

theorem push (h : Shows a ⟨xs, c⟩) (v : α) :
    Shows (a.push v) ⟨xs ++ [v], if xs.length = c then nextCapacity c else c⟩ := by
  have hsize : a.size = xs.length := h.size
  have hcap : a.slots.size = c := h.capacity
  have hle : xs.length ≤ c := h.length_le
  have hslots := h.slots
  have hnext : c < nextCapacity c := by unfold nextCapacity; split <;> omega
  unfold Growable.push
  split
  · next hlt =>
    rw [if_neg (by omega)]
    refine ⟨?_, by simp [hsize], by simp; omega⟩
    simp only [Array.toList_set, hslots, hsize, List.length_append, List.length_singleton]
    rw [set_append_replicate v (by omega), Nat.sub_sub]
  · next hge =>
    have hfull : xs.length = c := by omega
    rw [if_pos hfull]
    subst hfull
    refine ⟨?_, by simp [hsize], by simp; omega⟩
    simp only [Array.toList_set, Array.toList_append, Array.toList_replicate, hslots, hsize, hcap,
      List.length_append, List.length_singleton, Nat.sub_self, List.replicate_zero,
      List.append_nil]
    rw [set_append_replicate v (by omega), Nat.sub_sub]

theorem set?_eq_some (h : Shows a ⟨xs, c⟩) {i : Nat} (hi : i < xs.length) (v : α) :
    ∃ b, a.set? i v = some b ∧ Shows b ⟨xs.set i v, c⟩ := by
  have hsize : a.size = xs.length := h.size
  refine ⟨a.set i v, by rw [set?, if_pos (by omega)], ?_⟩
  unfold Growable.set
  rw [dif_pos (by omega)]
  refine ⟨?_, by simp [hsize], by simpa using h.length_le⟩
  simp only [Array.toList_set, h.slots, List.length_set]
  rw [List.set_append_left _ _ hi]

theorem set?_eq_none (h : Shows a ⟨xs, c⟩) {i : Nat} (hi : xs.length ≤ i) (v : α) :
    a.set? i v = none := by
  have hsize : a.size = xs.length := h.size
  rw [set?, if_neg (by omega)]

theorem truncate?_eq_some (h : Shows a ⟨xs, c⟩) {n : Nat} (hn : n ≤ c) :
    ∃ b, a.truncate? n = some b ∧
      Shows b ⟨xs.take n ++ List.replicate (n - xs.length) default, c⟩ := by
  have hsize : a.size = xs.length := h.size
  have hcap : a.slots.size = c := h.capacity
  have hle : xs.length ≤ c := h.length_le
  have hslots : a.slots.toList = xs ++ List.replicate (c - xs.length) default := h.slots
  rw [truncate?, dif_pos (by omega)]
  refine ⟨_, rfl, ?_, by simp; omega, by simp; omega⟩
  have hdrop (m : Nat) : (a.slots.extract m a.slots.size).toList =
      (xs ++ List.replicate (c - xs.length) default).drop m := by
    rw [Array.toList_extract, ← hslots, List.extract_eq_take_drop, List.take_of_length_le]
    simp
  simp only [Array.toList_append, Array.toList_replicate, hdrop, Array.toList_extract, hslots,
    List.extract_eq_take_drop, List.drop_zero, Nat.sub_zero, hsize]
  by_cases hlen : n ≤ xs.length
  · rw [Nat.max_eq_right hlen, List.drop_left, List.take_append_of_le_length hlen,
      Nat.sub_eq_zero_of_le hlen]
    simp only [List.replicate_zero, List.append_nil, List.append_assoc, List.replicate_append_replicate,
      List.length_take]
    congr 2
    omega
  · have hle' : xs.length ≤ n := by omega
    rw [Nat.max_eq_left hle', List.take_append, List.drop_append, Nat.sub_eq_zero_of_le hle',
      List.drop_of_length_le hle']
    simp only [List.replicate_zero, List.append_nil, List.nil_append, List.take_replicate,
      List.drop_replicate, List.length_append, List.length_take, List.length_replicate]
    rw [Nat.min_eq_left (by omega), Nat.min_eq_right hle']
    congr 2
    omega

theorem truncate?_eq_none (h : Shows a ⟨xs, c⟩) {n : Nat} (hn : c < n) : a.truncate? n = none := by
  have hcap : a.slots.size = c := h.capacity
  rw [truncate?, dif_neg (by omega)]

theorem pop?_eq_none (h : Shows a ⟨[], c⟩) : a.pop? = none := by
  simp [pop?, h.last?_eq]

theorem pop?_eq_some (h : Shows a ⟨xs, c⟩) {v : α} (hv : xs.getLast? = some v) :
    ∃ b, a.pop? = some (v, b) ∧ Shows b ⟨xs.dropLast, c⟩ := by
  have hsize : a.size = xs.length := h.size
  obtain ⟨b, hb, hshows⟩ := h.truncate?_eq_some (n := xs.length - 1)
    (by have := h.length_le; simp only at this; omega)
  have hle : xs.length - 1 ≤ xs.length := Nat.sub_le _ _
  refine ⟨b, ?_, ?_⟩
  · simp [pop?, h.last?_eq, hv, hsize, hb]
  · rwa [Nat.sub_eq_zero_of_le hle, List.replicate_zero, List.append_nil,
      ← List.dropLast_eq_take] at hshows

end Shows

theorem run_append (a : Growable α) (v : α) (growths : List (Growth α)) :
    (a.append note v).run growths = ((a.size, a.push v), growths ++
      if a.isFull then [⟨a.toList, a.capacity, nextCapacity a.capacity⟩] else []) := by
  unfold append
  split
  · rfl
  · rw [List.append_nil]
    rfl

def Doubled (c : Nat) : Prop :=
  c = 0 ∨ ∃ k, c = 8 * 2 ^ k

theorem Doubled.next {c : Nat} (h : Doubled c) : Doubled (nextCapacity c) := by
  right
  unfold nextCapacity
  obtain rfl | ⟨k, rfl⟩ := h
  · exact ⟨0, rfl⟩
  · have hpos : 0 < 2 ^ k := Nat.two_pow_pos k
    refine ⟨k + 1, ?_⟩
    rw [if_neg (by omega), Nat.pow_succ, Nat.mul_assoc]

def charged (growths : List (Growth α)) : Int :=
  (growths.map fun g => (g.after : Int) - g.before).sum

structure Accounts (a : Growable α) (o : Outline α) (growths : List (Growth α)) : Prop where
  shows : Shows a o
  doubled : Doubled o.capacity
  charged : charged growths = o.capacity

namespace Accounts

variable {a b : Growable α} {o o' : Outline α} {growths : List (Growth α)}

theorem empty : Accounts (Growable.empty : Growable α) ⟨[], 0⟩ [] :=
  ⟨.empty, .inl rfl, rfl⟩

theorem same_capacity (h : Accounts a o growths) (hb : Shows b o')
    (hc : o'.capacity = o.capacity) : Accounts b o' growths :=
  ⟨hb, hc ▸ h.doubled, hc ▸ h.charged⟩

theorem push_full {xs : List α} {c : Nat} (h : Accounts a ⟨xs, c⟩ growths) (hfull : xs.length = c)
    (v : α) :
    Accounts (a.push v) ⟨xs ++ [v], nextCapacity c⟩ (growths ++ [⟨xs, c, nextCapacity c⟩]) where
  shows := by
    have hpush := h.shows.push v
    rwa [if_pos hfull] at hpush
  doubled := h.doubled.next
  charged := by
    have hcharged : Growable.charged growths = (c : Int) := h.charged
    simp only [Growable.charged, List.map_append, List.sum_append, List.map_cons, List.map_nil,
      List.sum_cons, List.sum_nil] at hcharged ⊢
    omega

end Accounts

namespace Operation

theorem onArray_accounts {a : Growable α} {o : Outline α} {growths : List (Growth α)}
    (h : Accounts a o growths) (op : Operation α) :
    Option.Rel (fun x y => x.1 = y.1 ∧ x.2.2 = y.2.2 ∧ Accounts x.2.1 y.2.1 y.2.2)
      (op.onArray (a, growths)) (op.onOutline (o, growths)) := by
  obtain ⟨xs, c⟩ := o
  have hshows := h.shows
  have hsize : a.size = xs.length := hshows.size
  cases op with
  | append v =>
    simp only [onArray, run_append, onOutline, hshows.isFull_iff, hshows.toList, hshows.capacity, hsize]
    by_cases hfull : xs.length = c
    · rw [if_pos hfull, if_pos hfull]
      exact .some ⟨rfl, rfl, h.push_full hfull v⟩
    · rw [if_neg hfull, if_neg hfull, List.append_nil]
      have hpush := hshows.push v
      rw [if_neg hfull] at hpush
      exact .some ⟨rfl, rfl, h.same_capacity hpush rfl⟩
  | set i v =>
    simp only [onArray, onOutline, place?]
    by_cases hi : 0 ≤ i ∧ i < xs.length
    · obtain ⟨b, hb, hb'⟩ := hshows.set?_eq_some (i := i.toNat) (by omega) v
      rw [if_pos hi, if_pos hi.1]
      simp only [Option.bind_eq_bind, Option.bind_some, hb]
      exact .some ⟨rfl, rfl, h.same_capacity hb' rfl⟩
    · rw [if_neg hi]
      by_cases hneg : 0 ≤ i
      · rw [if_pos hneg]
        simp only [Option.bind_eq_bind, Option.bind_some, hshows.set?_eq_none (i := i.toNat) (by omega) v]
        exact .none
      · rw [if_neg hneg]
        exact .none
  | pop =>
    simp only [onArray, onOutline]
    cases hv : xs.getLast? with
    | none =>
      obtain rfl := List.getLast?_eq_none_iff.mp hv
      rw [hshows.pop?_eq_none]
      exact .none
    | some v =>
      obtain ⟨b, hb, hb'⟩ := hshows.pop?_eq_some hv
      rw [hb]
      exact .some ⟨rfl, rfl, h.same_capacity hb' rfl⟩
  | truncate n =>
    simp only [onArray, onOutline, place?]
    by_cases hn : 0 ≤ n ∧ n ≤ c
    · obtain ⟨b, hb, hb'⟩ := hshows.truncate?_eq_some (n := n.toNat) (by omega)
      rw [if_pos hn, if_pos hn.1]
      simp only [Option.bind_eq_bind, Option.bind_some, hb]
      exact .some ⟨rfl, rfl, h.same_capacity hb' rfl⟩
    · rw [if_neg hn]
      by_cases hneg : 0 ≤ n
      · rw [if_pos hneg]
        simp only [Option.bind_eq_bind, Option.bind_some, hshows.truncate?_eq_none (n := n.toNat) (by omega)]
        exact .none
      · rw [if_neg hneg]
        exact .none
  | reset => exact .some ⟨rfl, rfl, .empty⟩
  | get i =>
    simp only [onArray, onOutline, place?]
    by_cases hi : 0 ≤ i
    · rw [if_pos hi, if_pos hi]
      simp only [Option.bind_eq_bind, Option.bind_some, hshows.get?_eq]
      cases xs[i.toNat]? with
      | none => exact .none
      | some v => exact .some ⟨rfl, rfl, h⟩
    · rw [if_neg hi, if_neg hi]
      exact .none
  | last =>
    simp only [onArray, onOutline, hshows.last?_eq]
    cases xs.getLast? with
    | none => exact .none
    | some v => exact .some ⟨rfl, rfl, h⟩
  | items => exact .some ⟨congrArg Response.elements hshows.toList, rfl, h⟩

theorem all_accounts (ops : List (Operation α)) {a : Growable α} {o : Outline α}
    {growths : List (Growth α)} (h : Accounts a o growths) :
    Option.Rel (fun x y => x.1 = y.1 ∧ x.2.2 = y.2.2 ∧ Accounts x.2.1 y.2.1 y.2.2)
      (all onArray ops (a, growths)) (all onOutline ops (o, growths)) := by
  induction ops generalizing a o growths with
  | nil => exact .some ⟨rfl, rfl, h⟩
  | cons op ops ih =>
    have hstep := op.onArray_accounts h
    simp only [all]
    generalize op.onArray (a, growths) = x at hstep
    generalize op.onOutline (o, growths) = y at hstep
    cases hstep with
    | none => exact .none
    | @some x y hxy =>
      obtain ⟨r, b, growths'⟩ := x
      obtain ⟨_, o', _⟩ := y
      obtain ⟨rfl, rfl, hb⟩ := hxy
      have hrest := ih hb
      simp only [Option.bind_eq_bind, Option.bind_some]
      generalize all onArray ops (b, growths') = x at hrest
      generalize all onOutline ops (o', growths') = y at hrest
      cases hrest with
      | none => exact .none
      | some hxy => exact .some ⟨by rw [hxy.1], hxy.2⟩

end Operation

/-- An array as the list of an outline. -/
structure Represents (a : Growable α) (o : Outline α) (growths : List (Growth α)) : Prop where
  toList : a.toList = o.elements
  size : a.size = o.elements.length
  capacity : a.capacity = o.capacity
  hidden : ∀ i (h : i < a.slots.size), a.size ≤ i → a.slots[i] = default
  doubled : Doubled a.capacity
  charged : charged growths = a.capacity

theorem Accounts.represents {a : Growable α} {o : Outline α} {growths : List (Growth α)}
    (h : Accounts a o growths) : Represents a o growths where
  toList := h.shows.toList
  size := h.shows.size
  capacity := h.shows.capacity
  hidden i hi hle := by
    have hsize := h.shows.size
    rw [← Array.getElem_toList (h := hi)]
    simp only [h.shows.slots]
    rw [List.getElem_append_right (by omega), List.getElem_replicate]
  doubled := h.shows.capacity ▸ h.doubled
  charged := h.shows.capacity ▸ h.charged

/-- After any operations on an array that starts empty, all answers and all growths that the hook was
told of are those of the outline, and the array represents the outline; an operation is not allowed
just if it is not allowed on the outline. -/
theorem Operation.all_outlined (ops : List (Operation α)) :
    Option.Rel (fun x y => x.1 = y.1 ∧ x.2.2 = y.2.2 ∧ Represents x.2.1 y.2.1 y.2.2)
      (all onArray ops (.empty, [])) (all onOutline ops (⟨[], 0⟩, [])) := by
  have hall := all_accounts ops Accounts.empty
  generalize all onArray ops (.empty, []) = x at hall
  generalize all onOutline ops (⟨[], 0⟩, []) = y at hall
  cases hall with
  | none => exact .none
  | some hxy => exact .some ⟨hxy.1, hxy.2.1, hxy.2.1 ▸ hxy.2.2.represents⟩

end Lox.Growable
