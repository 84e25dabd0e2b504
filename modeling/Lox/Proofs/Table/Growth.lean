import Lox.Proofs.Table.Map

namespace Lox.Table

theorem mem_toList {t : Table} {k : Symbol} {v : Value} : (k, v) ∈ t.toList ↔ t.Binds k v := by
  simp only [toList, List.mem_filterMap, Array.mem_toList_iff, Array.mem_iff_getElem]
  constructor
  · rintro ⟨e, ⟨i, hi, rfl⟩, he⟩
    refine ⟨i, ?_⟩
    simp only [entryAt, Array.getD_eq_getD_getElem?, hi, getElem?_pos, Option.getD_some]
    obtain ⟨k', hk', hkv⟩ := Option.map_eq_some_iff.mp he
    cases h : t.entries[i]
    simp_all
  · rintro ⟨i, hi⟩
    have hlt : i < t.entries.size := lt_size_of_key (k := k) (by rw [hi])
    have he : t.entries[i] = ⟨some k, v⟩ := by
      simpa [entryAt, Array.getD_eq_getD_getElem?, hlt] using hi
    exact ⟨_, ⟨i, hlt, rfl⟩, by rw [he]; rfl⟩

theorem length_toList (t : Table) : t.toList.length = bound t.entries := by
  simp only [toList, bound, List.length_filterMap_eq_countP, Option.isSome_map]
  rw [← Array.countP_toList]

theorem toList_pairwise {t : Table} (hl : Layout t.entries) :
    t.toList.Pairwise fun a b => a.1.loc ≠ b.1.loc := by
  rw [toList, List.pairwise_filterMap, List.pairwise_iff_getElem]
  intro i j hi hj hij a ha b hb hloc
  simp only [Array.length_toList] at hi hj
  simp only [Array.getElem_toList] at ha hb
  obtain ⟨k, hk, rfl⟩ := Option.map_eq_some_iff.mp ha
  obtain ⟨k', hk', rfl⟩ := Option.map_eq_some_iff.mp hb
  have := hl.distinct i j k k' (by simpa [entryAt, Array.getD_eq_getD_getElem?, hi] using hk)
    (by simpa [entryAt, Array.getD_eq_getD_getElem?, hj] using hk') hloc
  omega

def Fresh (es : Array Entry) : Prop :=
  ∀ i, (entryAt es i).key = none → (entryAt es i).isVacant = true

theorem Fresh.occupied_eq {es : Array Entry} (h : Fresh es) : occupied es = bound es := by
  apply Array.countP_congr
  intro e he
  obtain ⟨i, hi, rfl⟩ := Array.mem_iff_getElem.mp he
  have hi' : entryAt es i = es[i] := by simp [entryAt, Array.getD_eq_getD_getElem?, hi]
  have := h i
  rw [hi'] at this
  cases hk : es[i].key with
  | none => simp [this hk]
  | some k => simp [Entry.isVacant_eq_false_of_key hk]

theorem entryAt_replicate (n i : Nat) : entryAt (Array.replicate n Entry.empty) i = Entry.empty := by
  simp only [entryAt, Array.getD_eq_getD_getElem?, Array.getElem?_replicate]
  split <;> rfl

theorem layout_replicate (n : Nat) : Layout (Array.replicate n Entry.empty) where
  distinct i j k k' h := by rw [entryAt_replicate] at h; cases h
  path j k h := by rw [entryAt_replicate] at h; cases h

theorem fresh_replicate (n : Nat) : Fresh (Array.replicate n Entry.empty) := fun i _ => by
  rw [entryAt_replicate]; rfl

theorem bound_replicate (n : Nat) : bound (Array.replicate n Entry.empty) = 0 := by
  simp [bound, Array.countP_replicate, Entry.empty]

theorem place_new {es : Array Entry} (hl : Layout es) (hf : Fresh es) {key : Symbol} (v : Value)
    (hnew : ∀ i k, (entryAt es i).key = some k → k.loc ≠ key.loc) (hroom : bound es < es.size) :
    Layout (place es key v) ∧ Fresh (place es key v) ∧ bound (place es key v) = bound es + 1 ∧
      (place es key v).size = es.size := by
  rw [← hf.occupied_eq] at hroom
  have ha : Agrees es key := fun i k hk hloc => absurd hloc (hnew i k hk)
  obtain ⟨u, hu, hvac⟩ := exists_vacant hroom
  have hlt := slotOf_lt key hu hvac
  have hat := fun j => entryAt_set es (slotOf es key) j ⟨some key, v⟩ hlt
  have hcount := countP_setIfInBounds (fun e => e.key.isSome) es _ ⟨some key, v⟩ hlt
  have hold : (entryAt es (slotOf es key)).key = none := by
    cases hk : (entryAt es (slotOf es key)).key with
    | none => rfl
    | some k => exact absurd (congrArg Symbol.loc (slotOf_key_some ha hroom hk)) (hnew _ _ hk)
  refine ⟨layout_place hl v ha hroom, fun i hi => ?_, ?_, by simp [place]⟩
  · rw [place, hat] at hi ⊢
    split at hi
    · cases hi
    · rename_i hne
      rw [if_neg hne]
      exact hf i hi
  · simpa [hold, bound, place] using hcount

theorem foldl_place {bs : List (Symbol × Value)} {es : Array Entry} (hl : Layout es)
    (hf : Fresh es) (hbs : bs.Pairwise fun a b => a.1.loc ≠ b.1.loc)
    (hnew : ∀ b ∈ bs, ∀ i k, (entryAt es i).key = some k → k.loc ≠ b.1.loc)
    (hroom : bound es + bs.length < es.size) :
    let es' := bs.foldl (fun es (key, v) => place es key v) es
    Layout es' ∧ Fresh es' ∧ bound es' = bound es + bs.length ∧ es'.size = es.size ∧
      ∀ k w, (∃ i, entryAt es' i = ⟨some k, w⟩) ↔ (k, w) ∈ bs ∨ ∃ i, entryAt es i = ⟨some k, w⟩ := by
  induction bs generalizing es with
  | nil => simp [hl, hf]
  | cons b bs ih =>
    obtain ⟨key, v⟩ := b
    simp only [List.pairwise_cons, List.forall_mem_cons, List.length_cons] at hbs hnew hroom
    have ha : Agrees es key := fun i k hk hloc => absurd hloc (hnew.1 i k hk)
    obtain ⟨hl', hf', hb', hs'⟩ := place_new hl hf v hnew.1 (by omega)
    have hbinds := binds_place hl ha (by rw [hf.occupied_eq]; omega) v
    have hnew' : ∀ b ∈ bs, ∀ i k, (entryAt (place es key v) i).key = some k → k.loc ≠ b.1.loc := by
      intro b hb i k hk
      rcases (hbinds k _).mp (binds_of_key (t := ⟨place es key v, 0, 0⟩) hk) with ⟨rfl, -⟩ | ⟨-, j, hj⟩
      · exact hbs.1 b hb
      · exact hnew.2 b hb j k (by rw [hj])
    obtain ⟨h1, h2, h3, h4, h5⟩ := ih hl' hf' hbs.2 hnew' (by omega)
    rw [hb'] at h3
    rw [hs'] at h4
    refine ⟨h1, h2, h3.trans (by simp only [List.length_cons]; omega), h4, fun k w => ?_⟩
    refine (h5 k w).trans ?_
    rw [hbinds, List.mem_cons, Prod.mk.injEq]
    constructor
    · rintro (h | ⟨rfl, rfl⟩ | ⟨-, h⟩)
      · exact .inl (.inr h)
      · exact .inl (.inl ⟨rfl, rfl⟩)
      · exact .inr h
    · rintro ((⟨rfl, rfl⟩ | h) | ⟨j, hj⟩)
      · exact .inr (.inl ⟨rfl, rfl⟩)
      · exact .inl h
      · exact .inr (.inr ⟨hnew.1 j k (by rw [hj]), j, hj⟩)

theorem growTo_spec {t : Table} (ht : t.Sound) {c : Nat} (hc : 4 * bound t.entries ≤ 3 * c) :
    (t.growTo c).Sound ∧ (t.growTo c).entries.size = c ∧ (t.growTo c).count = bound t.entries ∧
      ∀ k w, (t.growTo c).Binds k w ↔ t.Binds k w := by
  by_cases h0 : t.toList = []
  · have hb : bound t.entries = 0 := by rw [← length_toList, h0]; rfl
    have he : t.growTo c = ⟨Array.replicate c Entry.empty, 0, 0⟩ := by simp [growTo, h0]
    rw [he]
    refine ⟨⟨layout_replicate c, ?_, ?_, by simp⟩, by simp, hb.symm, fun k w => ?_⟩
    · rw [(fresh_replicate c).occupied_eq, bound_replicate]
    · rw [bound_replicate]
    · rw [← mem_toList (t := t), h0]
      simp only [Binds, entryAt_replicate, List.not_mem_nil, iff_false]
      rintro ⟨i, hi⟩
      cases hi
  · have hpos : 0 < t.toList.length := List.length_pos_iff.mpr h0
    rw [length_toList] at hpos
    obtain ⟨h1, h2, h3, h4, h5⟩ := foldl_place (layout_replicate c) (fresh_replicate c)
      (toList_pairwise ht.layout)
      (fun b _ i k hk => by rw [entryAt_replicate] at hk; cases hk)
      (by rw [bound_replicate, length_toList, Array.size_replicate]; omega)
    rw [bound_replicate, length_toList, Nat.zero_add] at h3
    rw [Array.size_replicate] at h4
    refine ⟨⟨h1, ?_, ?_, ?_⟩, h4, length_toList t, fun k w => ?_⟩
    · exact (length_toList t).trans (h3.symm.trans h2.occupied_eq.symm)
    · exact (length_toList t).trans h3.symm
    · show 4 * t.toList.length ≤ 3 * _
      rw [length_toList, show (t.growTo c).entries.size = c from h4]
      exact hc
    · refine (h5 k w).trans ?_
      rw [mem_toList]
      simp only [entryAt_replicate, or_iff_left_iff_imp]
      rintro ⟨i, hi⟩
      cases hi

theorem Sound.room_nextCapacity {t : Table} (ht : t.Sound) :
    4 * (bound t.entries + 1) ≤ 3 * nextCapacity t.capacity := by
  have h1 := ht.room
  have h2 := bound_le_occupied t.entries
  rw [← ht.count_eq] at h2
  unfold nextCapacity capacity
  split <;> omega

theorem Sound.growTo {t : Table} (ht : t.Sound) : (t.growTo (nextCapacity t.capacity)).Sound :=
  (growTo_spec ht (by have := ht.room_nextCapacity; omega)).1

theorem Sound.isCrowded_growTo {t : Table} (ht : t.Sound) :
    (t.growTo (nextCapacity t.capacity)).isCrowded = false := by
  have h := ht.room_nextCapacity
  obtain ⟨-, hs, hc, -⟩ := growTo_spec ht (c := nextCapacity t.capacity) (by omega)
  rw [isCrowded_eq_false, hs, hc]
  exact h

theorem Sound.size_le_growTo {t : Table} (ht : t.Sound) :
    t.entries.size ≤ (t.growTo (nextCapacity t.capacity)).entries.size := by
  obtain ⟨-, hs, -⟩ := growTo_spec ht (c := nextCapacity t.capacity)
    (by have := ht.room_nextCapacity; omega)
  rw [hs, nextCapacity, capacity]
  split <;> omega

theorem Sound.binds_growTo {t : Table} (ht : t.Sound) (k : Symbol) (w : Value) :
    (t.growTo (nextCapacity t.capacity)).Binds k w ↔ t.Binds k w :=
  (growTo_spec ht (by have := ht.room_nextCapacity; omega)).2.2.2 k w

theorem delete_of_no_key {t : Table} {key : Symbol}
    (h : (entryAt t.entries (slotOf t.entries key)).key = none) : t.delete key = (false, t) := by
  simp only [delete, getD_eq_entryAt, h, Option.isNone_none, ↓reduceIte, ite_self]

theorem delete_of_key {t : Table} {key k : Symbol} (h0 : t.live ≠ 0)
    (h : (entryAt t.entries (slotOf t.entries key)).key = some k) : t.delete key =
      (true, ⟨t.entries.setIfInBounds (slotOf t.entries key) .tombstone, t.count, t.live - 1⟩) := by
  simp only [delete, getD_eq_entryAt, h, h0, ↓reduceIte]
  rfl

theorem delete_spec {t : Table} (ht : t.Sound) {key : Symbol} (ha : Agrees t.entries key) :
    (t.delete key).2.Sound ∧
      ∀ k w, (t.delete key).2.Binds k w ↔ k.loc ≠ key.loc ∧ t.Binds k w := by
  have hsame (h : ∀ w, ¬ t.Binds key w) (k : Symbol) (w : Value) :
      t.Binds k w ↔ k.loc ≠ key.loc ∧ t.Binds k w := by
    refine ⟨fun ⟨i, hi⟩ => ⟨fun hl => ?_, i, hi⟩, And.right⟩
    obtain rfl := ha i k (by rw [hi]) hl
    exact h w ⟨i, hi⟩
  by_cases h0 : t.live = 0
  · have he : t.delete key = (false, t) := by simp [delete, h0]
    rw [he]
    exact ⟨ht, hsame (ht.binds_of_live h0 key)⟩
  · have hpos := ht.size_pos_of_live h0
    have hroom := ht.occupied_lt hpos
    obtain ⟨v, hv, hvac⟩ := exists_vacant hroom
    have hlt := slotOf_lt key hv hvac
    cases hk₀ : (entryAt t.entries (slotOf t.entries key)).key with
    | none =>
      rw [delete_of_no_key hk₀]
      refine ⟨ht, hsame fun w ⟨i, hi⟩ => ?_⟩
      exact slotOf_key_none ht.layout ha hroom hk₀ i key (by rw [hi]) rfl
    | some k₀ =>
      rw [delete_of_key h0 hk₀]
      obtain rfl := slotOf_key_some ha hroom hk₀
      have hat := fun j => entryAt_set t.entries (slotOf t.entries k₀) j Entry.tombstone hlt
      have hocc := countP_setIfInBounds (fun e => !e.isVacant) t.entries _ Entry.tombstone hlt
      have hbound := countP_setIfInBounds (fun e => e.key.isSome) t.entries _ Entry.tombstone hlt
      simp only [Entry.isVacant_eq_false_of_key hk₀, Entry.isVacant_tombstone, hk₀] at hocc hbound
      simp only [Entry.tombstone, Bool.not_false, ↓reduceIte, Option.isSome_some, Option.isSome_none,
        Bool.false_eq_true, Nat.add_zero] at hocc hbound
      refine ⟨⟨layout_set ht.layout hlt _ Entry.isVacant_tombstone (by rintro k ⟨⟩), ?_, ?_,
        by simpa using ht.room⟩, fun k w => ?_⟩
      · have := ht.count_eq
        simp only [occupied, Entry.tombstone] at this ⊢
        omega
      · have := ht.live_eq
        simp only [bound, Entry.tombstone] at this ⊢
        omega
      · simp only [Binds, hat]
        constructor
        · rintro ⟨i, hi⟩
          split at hi
          · cases hi
          · rename_i hne
            refine ⟨fun hl => hne ?_, i, hi⟩
            exact ht.layout.distinct i _ k k₀ (by rw [hi]) hk₀ hl
        · rintro ⟨hl, i, hi⟩
          refine ⟨i, ?_⟩
          rw [if_neg, hi]
          rintro rfl
          rw [hi] at hk₀
          cases hk₀
          exact hl rfl

theorem entryAt_map (es : Array Entry) (f : Entry → Entry) (hf : f .empty = .empty) (i : Nat) :
    entryAt (es.map f) i = f (entryAt es i) := by
  simp only [entryAt, Array.getD_eq_getD_getElem?, Array.getElem?_map]
  cases es[i]? <;> simp [hf]

theorem retain_spec {t : Table} (ht : t.Sound) (keep : Symbol → Bool) :
    (t.retain keep).2.Sound ∧
      ∀ k w, (t.retain keep).2.Binds k w ↔ keep k = true ∧ t.Binds k w := by
  let dropped (e : Entry) : Bool := e.key.any fun k => !keep k
  let f (e : Entry) : Entry := if dropped e then .tombstone else e
  have he : (t.retain keep).2 = ⟨t.entries.map f, t.count, t.live - t.entries.countP dropped⟩ := rfl
  have hat := entryAt_map t.entries f rfl
  have hdrop : ∀ e, dropped e = true → f e = .tombstone := fun e h => if_pos h
  have hkeep : ∀ e, dropped e = false → f e = e := fun e h => if_neg (by simp [h])
  have hdropped : ∀ e, dropped e = true ↔ ∃ k, e.key = some k ∧ keep k = false := by
    intro e
    simp [dropped, Option.any_eq_true]
  have hvac : ∀ e, (f e).isVacant = e.isVacant := by
    intro e
    cases hd : dropped e with
    | true =>
      obtain ⟨k, hk, -⟩ := (hdropped e).mp hd
      rw [hdrop e hd, Entry.isVacant_eq_false_of_key hk]; rfl
    | false => rw [hkeep e hd]
  have hkey : ∀ e k, (f e).key = some k ↔ e.key = some k ∧ keep k = true := by
    intro e k
    cases hd : dropped e with
    | true =>
      obtain ⟨k', hk', hf⟩ := (hdropped e).mp hd
      rw [hdrop e hd, hk']
      simp only [Entry.tombstone, reduceCtorEq, Option.some.injEq, false_iff]
      rintro ⟨rfl, ht⟩
      simp [hf] at ht
    | false =>
      rw [hkeep e hd]
      refine ⟨fun hk => ⟨hk, ?_⟩, And.left⟩
      cases hf : keep k with
      | true => rfl
      | false => rw [(hdropped e).mpr ⟨k, hk, hf⟩] at hd; cases hd
  rw [he]
  refine ⟨⟨⟨?_, ?_⟩, ?_, ?_, by simpa using ht.room⟩, fun k w => ?_⟩
  · intro i j k k' hi hj
    rw [hat, hkey] at hi hj
    exact ht.layout.distinct i j k k' hi.1 hj.1
  · intro j k hj
    rw [hat, hkey] at hj
    obtain ⟨d, hd, hs, hp⟩ := ht.layout.path j k hj.1
    simp only [slotAfter, Array.size_map] at hs hp ⊢
    exact ⟨d, hd, hs, fun d' hd' => by rw [hat, hvac]; exact hp d' hd'⟩
  · rw [ht.count_eq]
    simp only [occupied, Array.countP_map, Function.comp_def, hvac]
  · have hsplit : bound t.entries = bound (t.entries.map f) + t.entries.countP dropped := by
      simp only [bound, Array.countP_map, Function.comp_def]
      rw [← Array.countP_toList, ← Array.countP_toList, ← Array.countP_toList]
      induction t.entries.toList with
      | nil => rfl
      | cons e es ih =>
        simp only [List.countP_cons, ih]
        cases hd : dropped e with
        | true =>
          obtain ⟨k, hk, -⟩ := (hdropped e).mp hd
          simp [hdrop e hd, hk, Entry.tombstone]
          omega
        | false => simp [hkeep e hd]; omega
    simp only [ht.live_eq]
    omega
  · simp only [Binds, hat]
    constructor
    · rintro ⟨i, hi⟩
      have hk := (hkey (entryAt t.entries i) k).mp (by rw [hi])
      rw [hkeep _ (by simp [dropped, hk.1, hk.2])] at hi
      exact ⟨hk.2, i, hi⟩
    · rintro ⟨hk, i, hi⟩
      exact ⟨i, by rw [hkeep _ (by simp [dropped, hi, hk]), hi]⟩

theorem probeText_succ (es : Array Entry) (chars : Bytes) (hash : UInt32) (i fuel : Nat) :
    probeText es chars hash i (fuel + 1) =
      match (entryAt es i).key with
      | some k =>
        if k.hash = hash ∧ k.chars = chars then some k
        else probeText es chars hash ((i + 1) % es.size) fuel
      | none =>
        if (entryAt es i).isTombstone then probeText es chars hash ((i + 1) % es.size) fuel
        else none := rfl

theorem probeText_sound {es : Array Entry} {chars : Bytes} {hash : UInt32} {i fuel : Nat}
    {k : Symbol} (h : probeText es chars hash i fuel = some k) :
    (∃ j, (entryAt es j).key = some k) ∧ k.chars = chars := by
  induction fuel generalizing i with
  | zero => cases h
  | succ fuel ih =>
    rw [probeText_succ] at h
    cases hk : (entryAt es i).key with
    | none =>
      simp only [hk] at h
      split at h
      · exact ih h
      · cases h
    | some k' =>
      simp only [hk] at h
      split at h
      · rename_i hm
        cases h
        exact ⟨⟨i, hk⟩, hm.2⟩
      · exact ih h

theorem probeText_isSome (es : Array Entry) (chars : Bytes) (hash : UInt32) (d fuel i : Nat)
    (hi : i < es.size) (hd : d < fuel)
    (hp : ∀ d' < d, (entryAt es (slotAfter es i d')).isVacant = false) {k : Symbol}
    (hk : (entryAt es (slotAfter es i d)).key = some k) (hh : k.hash = hash)
    (hc : k.chars = chars) : (probeText es chars hash i fuel).isSome := by
  induction d generalizing fuel i with
  | zero =>
    obtain ⟨fuel, rfl⟩ : ∃ f, fuel = f + 1 := ⟨fuel - 1, by omega⟩
    rw [slotAfter_zero hi] at hk
    simp [probeText_succ, hk, hh, hc]
  | succ d ih =>
    obtain ⟨fuel, rfl⟩ : ∃ f, fuel = f + 1 := ⟨fuel - 1, by omega⟩
    have h0 := hp 0 (by omega)
    rw [slotAfter_zero hi] at h0
    have hgo : (probeText es chars hash ((i + 1) % es.size) fuel).isSome := by
      apply ih fuel _ (Nat.mod_lt _ (by omega)) (by omega)
      · intro d' hd'
        rw [← slotAfter_succ]
        exact hp (d' + 1) (by omega)
      · rwa [← slotAfter_succ]
    rw [probeText_succ]
    cases hkey : (entryAt es i).key with
    | none =>
      have ht : (entryAt es i).isTombstone = true := by
        rw [Entry.isTombstone_of_key hkey, h0]; rfl
      simpa [ht] using hgo
    | some k' =>
      simp only []
      split
      · rfl
      · exact hgo

theorem findText?_eq_some_iff {t : Table} (ht : t.Sound) (chars : Bytes)
    (hhash : ∀ k v, t.Binds k v → k.hash = k.chars.hash)
    (huniq : ∀ k v k' v', t.Binds k v → t.Binds k' v' → k.chars = k'.chars → k = k') {k : Symbol} :
    t.findText? chars chars.hash = some k ↔ (∃ v, t.Binds k v) ∧ k.chars = chars := by
  unfold findText?
  split
  · rename_i h0
    exact ⟨nofun, fun ⟨⟨v, hv⟩, _⟩ => absurd hv (ht.binds_of_live h0 k v)⟩
  · rename_i h0
    have hpos := ht.size_pos_of_live h0
    constructor
    · intro h
      obtain ⟨⟨j, hj⟩, hc⟩ := probeText_sound h
      exact ⟨⟨_, binds_of_key hj⟩, hc⟩
    · rintro ⟨⟨v, i, hi⟩, rfl⟩
      have hkey : (entryAt t.entries i).key = some k := by rw [hi]
      have hh := hhash k v ⟨i, hi⟩
      obtain ⟨d, hd, hs, hp⟩ := ht.layout.path i k hkey
      rw [hh] at hs hp
      have hsome := probeText_isSome t.entries k.chars k.chars.hash d t.entries.size _
        (Nat.mod_lt _ hpos) hd hp (by rw [← hs]; exact hkey) hh rfl
      obtain ⟨k', hk'⟩ := Option.isSome_iff_exists.mp hsome
      obtain ⟨⟨j, hj⟩, hc⟩ := probeText_sound hk'
      rw [hk', huniq _ _ _ _ (binds_of_key hj) ⟨i, hi⟩ hc]

end Lox.Table
