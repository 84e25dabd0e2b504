import Mathlib.Data.Set.Card
import Lox.Proofs.Table.Growth

/-!
Tables under every sequence of operations. The keys are the strings of one heap, with hashes that
may collide in any way. Beside the tables run finite maps from objects to values, and each
operation gives the same answer on both sides.
-/

namespace Lox.Table

structure Searchable (es : Array Entry) : Prop where
  vacant : ∃ i < es.size, (entryAt es i).isVacant = true
  probe_eq : ∀ key i tombstone fuel, i < es.size → es.size ≤ fuel →
    probe es key i tombstone fuel = probe es key i tombstone es.size
  probeText_eq : ∀ chars hash i fuel, i < es.size → es.size ≤ fuel →
    probeText es chars hash i fuel = probeText es chars hash i es.size

theorem probe_eq_of_vacant {es : Array Entry} (key : Loc) (d : Nat) {i fuel fuel' : Nat}
    (tombstone : Option Nat) (hi : i < es.size) (hd : d < fuel) (hd' : d < fuel')
    (hv : (entryAt es (slotAfter es i d)).isVacant = true) :
    probe es key i tombstone fuel = probe es key i tombstone fuel' := by
  induction d generalizing i fuel fuel' tombstone with
  | zero =>
    obtain ⟨fuel, rfl⟩ : ∃ f, fuel = f + 1 := ⟨fuel - 1, by omega⟩
    obtain ⟨fuel', rfl⟩ : ∃ f, fuel' = f + 1 := ⟨fuel' - 1, by omega⟩
    rw [slotAfter_zero hi] at hv
    have hk := Entry.key_of_isVacant hv
    have ht : (entryAt es i).isTombstone = false := by simp [Entry.isTombstone_of_key hk, hv]
    simp [probe_succ, hk, ht]
  | succ d ih =>
    obtain ⟨fuel, rfl⟩ : ∃ f, fuel = f + 1 := ⟨fuel - 1, by omega⟩
    obtain ⟨fuel', rfl⟩ : ∃ f, fuel' = f + 1 := ⟨fuel' - 1, by omega⟩
    rw [slotAfter_succ] at hv
    have hnext : (i + 1) % es.size < es.size := Nat.mod_lt _ (by omega)
    have hgo (t : Option Nat) : probe es key ((i + 1) % es.size) t fuel =
        probe es key ((i + 1) % es.size) t fuel' := ih t hnext (by omega) (by omega) hv
    rw [probe_succ, probe_succ]
    cases (entryAt es i).key with
    | some k => simp only [hgo]
    | none => simp only [hgo]

theorem probeText_eq_of_vacant {es : Array Entry} (chars : Bytes) (hash : UInt32) (d : Nat)
    {i fuel fuel' : Nat} (hi : i < es.size) (hd : d < fuel) (hd' : d < fuel')
    (hv : (entryAt es (slotAfter es i d)).isVacant = true) :
    probeText es chars hash i fuel = probeText es chars hash i fuel' := by
  induction d generalizing i fuel fuel' with
  | zero =>
    obtain ⟨fuel, rfl⟩ : ∃ f, fuel = f + 1 := ⟨fuel - 1, by omega⟩
    obtain ⟨fuel', rfl⟩ : ∃ f, fuel' = f + 1 := ⟨fuel' - 1, by omega⟩
    rw [slotAfter_zero hi] at hv
    have hk := Entry.key_of_isVacant hv
    have ht : (entryAt es i).isTombstone = false := by simp [Entry.isTombstone_of_key hk, hv]
    simp [probeText_succ, hk, ht]
  | succ d ih =>
    obtain ⟨fuel, rfl⟩ : ∃ f, fuel = f + 1 := ⟨fuel - 1, by omega⟩
    obtain ⟨fuel', rfl⟩ : ∃ f, fuel' = f + 1 := ⟨fuel' - 1, by omega⟩
    rw [slotAfter_succ] at hv
    have hnext : (i + 1) % es.size < es.size := Nat.mod_lt _ (by omega)
    have hgo : probeText es chars hash ((i + 1) % es.size) fuel =
        probeText es chars hash ((i + 1) % es.size) fuel' := ih hnext (by omega) (by omega) hv
    rw [probeText_succ, probeText_succ]
    cases (entryAt es i).key with
    | some k => simp only [hgo]
    | none => simp only [hgo]

theorem searchable_of_occupied_lt {es : Array Entry} (h : occupied es < es.size) :
    Searchable es := by
  obtain ⟨v, hv, hvac⟩ := exists_vacant h
  constructor
  · exact ⟨v, hv, hvac⟩
  · intro key i tombstone fuel hi hfuel
    obtain ⟨d, hd, rfl⟩ := exists_slotAfter hi hv
    exact probe_eq_of_vacant key d tombstone hi (by omega) hd hvac
  · intro chars hash i fuel hi hfuel
    obtain ⟨d, hd, rfl⟩ := exists_slotAfter hi hv
    exact probeText_eq_of_vacant chars hash d hi (by omega) hd hvac

def rehashed (t : Table) (n : Nat) : Array Entry :=
  (t.toList.take n).foldl (fun es (key, value) => place es key value)
    (Array.replicate (nextCapacity t.capacity) Entry.empty)

theorem Sound.searchable_rehashed {t : Table} (ht : t.Sound) (n : Nat) :
    Searchable (rehashed t n) := by
  have hroom := ht.room_nextCapacity
  have hlen : (t.toList.take n).length ≤ bound t.entries := by
    rw [← length_toList]
    simp
  have hbs := (toList_pairwise ht.layout).sublist (List.take_sublist n t.toList)
  obtain ⟨-, hfresh, hbound, hsize, -⟩ := foldl_place (layout_replicate (nextCapacity t.capacity))
    (fresh_replicate _) hbs
    (fun b _ i k hk => by rw [entryAt_replicate] at hk; cases hk)
    (by rw [bound_replicate, Array.size_replicate]; omega)
  apply searchable_of_occupied_lt
  rw [rehashed, hfresh.occupied_eq, hbound, hsize, bound_replicate, Array.size_replicate]
  omega

theorem Sound.reserve {t : Table} (ht : t.Sound) : t.reserve.Sound := by
  unfold Table.reserve
  split
  · exact ht.growTo
  · exact ht

theorem Sound.isCrowded_reserve {t : Table} (ht : t.Sound) : t.reserve.isCrowded = false := by
  unfold Table.reserve
  split
  · exact ht.isCrowded_growTo
  · rename_i h
    simpa using h

theorem Sound.binds_reserve {t : Table} (ht : t.Sound) (k : Symbol) (w : Value) :
    t.reserve.Binds k w ↔ t.Binds k w := by
  unfold Table.reserve
  split
  · exact ht.binds_growTo k w
  · rfl

theorem occupied_eq_bound_add (es : Array Entry) :
    occupied es = bound es + es.countP Entry.isTombstone := by
  simp only [occupied, bound]
  rw [← Array.countP_toList, ← Array.countP_toList, ← Array.countP_toList]
  induction es.toList with
  | nil => rfl
  | cons e es ih =>
    simp only [List.countP_cons, ih]
    cases hk : e.key with
    | none =>
      cases ht : e.isTombstone <;> simp [Entry.isVacant, hk, ht]
      omega
    | some k =>
      have ht : e.isTombstone = false := by simp [Entry.isTombstone, hk]
      simp [Entry.isVacant, hk, ht]
      omega

def IsCapacity (n : Nat) : Prop :=
  n = 0 ∨ ∃ k ≥ 3, n = 2 ^ k

theorem IsCapacity.next {n : Nat} (h : IsCapacity n) : IsCapacity (nextCapacity n) := by
  right
  unfold nextCapacity
  rcases h with rfl | ⟨k, hk, rfl⟩
  · exact ⟨3, Nat.le_refl 3, rfl⟩
  · have hpow : 2 ^ 3 ≤ 2 ^ k := Nat.pow_le_pow_right (by omega) hk
    refine ⟨k + 1, by omega, ?_⟩
    rw [if_neg (by omega), Nat.pow_succ, Nat.mul_comm]

theorem capacity_delete (t : Table) (key : Symbol) : (t.delete key).2.capacity = t.capacity := by
  simp only [delete]
  split
  · rfl
  · split
    · rfl
    · simp [capacity]

abbrev Strings := Loc → Bytes × UInt32

def Strings.key (s : Strings) (l : Loc) : Symbol :=
  ⟨l, (s l).1, (s l).2⟩

variable {s : Strings}

theorem Strings.eq_key_iff {k : Symbol} {l : Loc} : k = s.key l ↔ k.loc = l ∧ k = s.key k.loc := by
  constructor
  · rintro rfl
    exact ⟨rfl, rfl⟩
  · rintro ⟨rfl, h⟩
    exact h

structure Refines (s : Strings) (t : Table) (m : Loc → Option Value) : Prop where
  sound : t.Sound
  binds : ∀ k v, t.Binds k v ↔ k = s.key k.loc ∧ m k.loc = some v
  capacity : IsCapacity t.capacity

namespace Refines

variable {t source : Table} {m m' : Loc → Option Value}

theorem binds_key (h : Refines s t m) {l : Loc} {v : Value} :
    t.Binds (s.key l) v ↔ m l = some v := by
  rw [h.binds]
  exact and_iff_right rfl

theorem agrees (h : Refines s t m) (l : Loc) : Agrees t.entries (s.key l) := by
  apply agrees_of_binds
  intro k v hk hl
  exact Strings.eq_key_iff.mpr ⟨hl, ((h.binds k v).mp hk).1⟩

theorem empty : Refines s .empty fun _ => none where
  sound := sound_empty
  binds k v := by simp [not_binds_empty]
  capacity := .inl rfl

theorem get?_eq (h : Refines s t m) (l : Loc) : t.get? (s.key l) = m l := by
  apply Option.ext
  intro v
  exact (get?_eq_some_iff h.sound (h.agrees l)).trans h.binds_key

theorem reserve (h : Refines s t m) : Refines s t.reserve m where
  sound := h.sound.reserve
  binds k v := (h.sound.binds_reserve k v).trans (h.binds k v)
  capacity := by
    unfold Table.reserve
    split
    · obtain ⟨-, hs, -⟩ := growTo_spec h.sound (c := nextCapacity t.capacity)
        (by have := h.sound.room_nextCapacity; omega)
      rw [Table.capacity, hs]
      exact h.capacity.next
    · exact h.capacity

theorem set_fst (h : Refines s t m) (l : Loc) (v : Value) :
    (t.set (s.key l) v).1 = (m l).isNone := by
  have hiff := insert_fst h.reserve.sound (h.reserve.agrees l) h.sound.isCrowded_reserve v
  simp only [h.reserve.binds_key] at hiff
  rw [Bool.eq_iff_iff, Table.set, hiff]
  cases m l <;> simp

theorem set (h : Refines s t m) (l : Loc) (v : Value) :
    Refines s (t.set (s.key l) v).2 (Function.update m l (some v)) where
  sound := h.reserve.sound.insert v (h.reserve.agrees l) h.sound.isCrowded_reserve
  binds k w := by
    rw [Table.set, binds_insert h.reserve.sound (h.reserve.agrees l) h.sound.isCrowded_reserve,
      h.reserve.binds, Strings.eq_key_iff]
    by_cases hl : k.loc = l
    · simp only [hl, Strings.key, ne_eq, not_true_eq_false, false_and, or_false, true_and,
        Function.update_self, Option.some.injEq]
      exact and_congr_right fun _ => eq_comm
    · simp [hl, Strings.key]
  capacity := by
    have hsize : (t.set (s.key l) v).2.capacity = t.reserve.capacity := by
      simp [Table.set, Table.capacity, insert_entries, place]
    rw [hsize]
    exact h.reserve.capacity

theorem delete_fst (h : Refines s t m) (l : Loc) : (t.delete (s.key l)).1 = (m l).isSome := by
  have hget := h.get?_eq l
  by_cases h0 : t.live = 0
  · rw [get?, if_pos h0] at hget
    simp [delete, h0, ← hget]
  · simp only [get?, if_neg h0, getD_eq_entryAt] at hget
    cases hk : (entryAt t.entries (slotOf t.entries (s.key l))).key with
    | none =>
      rw [hk] at hget
      simp [delete_of_no_key hk, ← hget]
    | some k =>
      rw [hk] at hget
      simp [delete_of_key h0 hk, ← hget]

theorem delete (h : Refines s t m) (l : Loc) :
    Refines s (t.delete (s.key l)).2 (Function.update m l none) where
  sound := (delete_spec h.sound (h.agrees l)).1
  binds k w := by
    rw [(delete_spec h.sound (h.agrees l)).2, h.binds]
    by_cases hl : k.loc = l
    · simp [hl, Strings.key]
    · simp [hl, Strings.key]
  capacity := by
    rw [capacity_delete]
    exact h.capacity

theorem retain (h : Refines s t m) (keep : Loc → Bool) :
    Refines s (t.retain fun k => keep k.loc).2 fun l => if keep l then m l else none where
  sound := (retain_spec h.sound _).1
  binds k w := by
    rw [(retain_spec h.sound _).2, h.binds]
    cases keep k.loc <;> simp
  capacity := by
    have hsize : (t.retain fun k => keep k.loc).2.capacity = t.capacity := by
      simp [Table.retain, Table.capacity]
    rw [hsize]
    exact h.capacity

def overwrite (m : Loc → Option Value) (b : Symbol × Value) : Loc → Option Value :=
  Function.update m b.1.loc (some b.2)

theorem foldl_set {bs : List (Symbol × Value)} (hbs : ∀ b ∈ bs, b.1 = s.key b.1.loc)
    (h : Refines s t m) :
    Refines s (bs.foldl (fun t (key, value) => (t.set key value).2) t)
      (bs.foldl overwrite m) := by
  induction bs generalizing t m with
  | nil => exact h
  | cons b bs ih =>
    obtain ⟨key, value⟩ := b
    simp only [List.forall_mem_cons] at hbs
    have hkey : key = s.key key.loc := hbs.1
    apply ih hbs.2
    have hset := h.set key.loc value
    rwa [← hkey] at hset

theorem foldl_overwrite (bs : List (Symbol × Value)) (m : Loc → Option Value) (l : Loc)
    (hbs : bs.Pairwise fun a b => a.1.loc ≠ b.1.loc) :
    (∀ b ∈ bs, b.1.loc = l →
      bs.foldl overwrite m l = some b.2) ∧
    ((∀ b ∈ bs, b.1.loc ≠ l) →
      bs.foldl overwrite m l = m l) := by
  induction bs generalizing m with
  | nil => simp
  | cons b bs ih =>
    rw [List.pairwise_cons] at hbs
    obtain ⟨hin, hout⟩ := ih (overwrite m b) hbs.2
    simp only [List.foldl_cons, List.forall_mem_cons]
    refine ⟨⟨?_, hin⟩, ?_⟩
    · rintro rfl
      rw [hout fun b' hb' => (hbs.1 b' hb').symm, overwrite, Function.update_self]
    · rintro ⟨hne, hrest⟩
      rw [hout hrest, overwrite, Function.update_of_ne hne.symm]

theorem addAll (h : Refines s t m) (hsource : Refines s source m') :
    Refines s (t.addAll source) fun l => m' l <|> m l := by
  have hbs : ∀ b ∈ source.toList, b.1 = s.key b.1.loc ∧ m' b.1.loc = some b.2 := by
    rintro ⟨k, v⟩ hb
    exact (hsource.binds k v).mp (mem_toList.mp hb)
  have hmap : source.toList.foldl overwrite m =
      fun l => m' l <|> m l := by
    funext l
    obtain ⟨hin, hout⟩ := foldl_overwrite source.toList m l (toList_pairwise hsource.sound.layout)
    cases hl : m' l with
    | some v =>
      have hmem : (s.key l, v) ∈ source.toList := mem_toList.mpr (hsource.binds_key.mpr hl)
      exact hin _ hmem rfl
    | none =>
      apply hout
      rintro b hb rfl
      rw [(hbs b hb).2] at hl
      cases hl
  rw [← hmap]
  exact h.foldl_set fun b hb => (hbs b hb).1

theorem encard_eq (h : Refines s t m) : {l | (m l).isSome}.encard = t.live := by
  have hnodup : (t.toList.map fun b => b.1.loc).Nodup :=
    List.pairwise_map.mpr (toList_pairwise h.sound.layout)
  have hset : {l | (m l).isSome} = ((t.toList.map fun b => b.1.loc).toFinset : Set Loc) := by
    ext l
    simp only [Set.mem_ofPred_eq, Option.isSome_iff_exists, ← h.binds_key, ← mem_toList,
      List.coe_toFinset, List.mem_map, Prod.exists]
    constructor
    · rintro ⟨v, hv⟩
      exact ⟨s.key l, v, hv, rfl⟩
    · rintro ⟨k, v, hv, rfl⟩
      rw [mem_toList, h.binds] at hv
      exact ⟨v, by rw [mem_toList, h.binds_key]; exact hv.2⟩
  rw [hset, Set.encard_coe_eq_coe_finsetCard, List.toFinset_card_of_nodup hnodup, List.length_map,
    length_toList, h.sound.live_eq]

end Refines

/-- A table as a finite map from objects to values. -/
structure Represents (s : Strings) (t : Table) (m : Loc → Option Value) : Prop where
  get : ∀ l, t.get? (s.key l) = m l
  len : {l | (m l).isSome}.encard = t.live
  count : t.count = t.live + t.entries.countP Entry.isTombstone
  capacity : IsCapacity t.capacity
  load : 4 * t.count ≤ 3 * t.capacity
  bound : ∀ i k, (entryAt t.entries i).key = some k →
    k = s.key k.loc ∧ m k.loc = some (entryAt t.entries i).value
  slot : ∀ l, (m l).isSome → ∃! i, (entryAt t.entries i).key = some (s.key l)
  searchable : 0 < t.capacity → Searchable t.entries
  searchable_reserve : Searchable t.reserve.entries
  searchable_rehashed : ∀ n, Searchable (rehashed t n)

theorem Refines.represents {t : Table} {m : Loc → Option Value} (h : Refines s t m) :
    Represents s t m where
  get := h.get?_eq
  len := h.encard_eq
  count := by rw [h.sound.count_eq, h.sound.live_eq, occupied_eq_bound_add]
  capacity := h.capacity
  load := h.sound.room
  bound i k hk := (h.binds k _).mp (binds_of_key hk)
  slot l hl := by
    obtain ⟨v, hv⟩ := Option.isSome_iff_exists.mp hl
    obtain ⟨i, hi⟩ := h.binds_key.mpr hv
    refine ⟨i, by simp [hi], fun j hj => ?_⟩
    exact h.sound.layout.distinct j i _ _ hj (by rw [hi]) rfl
  searchable hpos := searchable_of_occupied_lt (h.sound.occupied_lt hpos)
  searchable_reserve := by
    have hroom := isCrowded_eq_false.mp h.sound.isCrowded_reserve
    exact searchable_of_occupied_lt (h.sound.reserve.occupied_lt (by omega))
  searchable_rehashed := h.sound.searchable_rehashed

inductive Operation where
  | set (table : Nat) (key : Loc) (value : Value)
  | get (table : Nat) (key : Loc)
  | delete (table : Nat) (key : Loc)
  | addAll (source target : Nat)
  | retain (table : Nat) (marked : Loc → Bool)
  | reset (table : Nat)

inductive Response where
  | done
  | flag (b : Bool)
  | found (v : Option Value)

def Operation.onTables (s : Strings) (tables : Nat → Table) :
    Operation → Response × (Nat → Table)
  | .set n key value =>
    let (isNew, t) := (tables n).set (s.key key) value
    (.flag isNew, Function.update tables n t)
  | .get n key => (.found ((tables n).get? (s.key key)), tables)
  | .delete n key =>
    let (wasThere, t) := (tables n).delete (s.key key)
    (.flag wasThere, Function.update tables n t)
  | .addAll source target =>
    (.done, Function.update tables target ((tables target).addAll (tables source)))
  | .retain n marked =>
    (.done, Function.update tables n ((tables n).retain fun k => marked k.loc).2)
  | .reset n => (.done, Function.update tables n .empty)

def Operation.onMaps (maps : Nat → Loc → Option Value) :
    Operation → Response × (Nat → Loc → Option Value)
  | .set n key value =>
    (.flag (maps n key).isNone, Function.update maps n (Function.update (maps n) key (some value)))
  | .get n key => (.found (maps n key), maps)
  | .delete n key =>
    (.flag (maps n key).isSome, Function.update maps n (Function.update (maps n) key none))
  | .addAll source target =>
    (.done, Function.update maps target fun l => maps source l <|> maps target l)
  | .retain n marked =>
    (.done, Function.update maps n fun l => if marked l then maps n l else none)
  | .reset n => (.done, Function.update maps n fun _ => none)

def Operation.all {σ : Type} (step : σ → Operation → Response × σ) (state : σ) :
    List Operation → List Response × σ
  | [] => ([], state)
  | op :: ops =>
    let (response, state') := step state op
    let (responses, last) := all step state' ops
    (response :: responses, last)

variable {tables : Nat → Table} {maps : Nat → Loc → Option Value}

theorem refines_update (h : ∀ n, Refines s (tables n) (maps n)) {n : Nat} {t : Table}
    {m : Loc → Option Value} (ht : Refines s t m) (k : Nat) :
    Refines s (Function.update tables n t k) (Function.update maps n m k) := by
  by_cases hk : k = n
  · subst hk
    simpa using ht
  · simpa [hk] using h k

theorem Operation.step_refines (h : ∀ n, Refines s (tables n) (maps n)) (op : Operation) :
    (op.onTables s tables).1 = (op.onMaps maps).1 ∧
      ∀ n, Refines s ((op.onTables s tables).2 n) ((op.onMaps maps).2 n) := by
  cases op with
  | set n key value =>
    exact ⟨congrArg Response.flag ((h n).set_fst key value),
      refines_update h ((h n).set key value)⟩
  | get n key => exact ⟨congrArg Response.found ((h n).get?_eq key), h⟩
  | delete n key =>
    exact ⟨congrArg Response.flag ((h n).delete_fst key), refines_update h ((h n).delete key)⟩
  | addAll source target => exact ⟨rfl, refines_update h ((h target).addAll (h source))⟩
  | retain n marked => exact ⟨rfl, refines_update h ((h n).retain marked)⟩
  | reset n => exact ⟨rfl, refines_update h .empty⟩

theorem Operation.all_refines (h : ∀ n, Refines s (tables n) (maps n)) (ops : List Operation) :
    (all (onTables s) tables ops).1 = (all onMaps maps ops).1 ∧
      ∀ n, Refines s ((all (onTables s) tables ops).2 n) ((all onMaps maps ops).2 n) := by
  induction ops generalizing tables maps with
  | nil => exact ⟨rfl, h⟩
  | cons op ops ih =>
    obtain ⟨hresponse, hnext⟩ := op.step_refines h
    obtain ⟨hrest, hlast⟩ := ih hnext
    refine ⟨?_, hlast⟩
    simp only [all]
    rw [hresponse, hrest]

/-- After any operations on tables that start empty, every response is that of the finite maps and
every table represents its map. -/
theorem Operation.all_represents (s : Strings) (ops : List Operation) :
    (all (onTables s) (fun _ => .empty) ops).1 = (all onMaps (fun _ _ => none) ops).1 ∧
      ∀ n, Represents s ((all (onTables s) (fun _ => .empty) ops).2 n)
        ((all onMaps (fun _ _ => none) ops).2 n) := by
  obtain ⟨hresponses, hlast⟩ := all_refines (s := s) (fun _ => .empty) ops
  exact ⟨hresponses, fun n => (hlast n).represents⟩

end Lox.Table
