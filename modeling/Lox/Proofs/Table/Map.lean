import Lox.Table

namespace Lox

def Entry.isVacant (e : Entry) : Bool :=
  e.key.isNone && !e.isTombstone

namespace Entry

theorem isVacant_eq_false_of_key {e : Entry} {k : Symbol} (h : e.key = some k) :
    e.isVacant = false := by
  simp [isVacant, h]

theorem isVacant_tombstone : tombstone.isVacant = false := rfl

theorem key_of_isVacant {e : Entry} (h : e.isVacant = true) : e.key = none := by
  simpa [isVacant] using (Bool.and_eq_true_iff.mp h).1

theorem isTombstone_of_key {e : Entry} (h : e.key = none) : e.isTombstone = !e.isVacant := by
  simp [isVacant, h]

end Entry

namespace Table

def slotAfter (es : Array Entry) (i d : Nat) : Nat :=
  (i + d) % es.size

def entryAt (es : Array Entry) (i : Nat) : Entry :=
  es.getD i Entry.empty

theorem getD_eq_entryAt (es : Array Entry) (i : Nat) : es.getD i Entry.empty = entryAt es i := rfl

theorem entryAt_set (es : Array Entry) (i j : Nat) (e : Entry) (hi : i < es.size) :
    entryAt (es.setIfInBounds i e) j = if j = i then e else entryAt es j := by
  simp only [entryAt, Array.getD_eq_getD_getElem?, Array.getElem?_setIfInBounds]
  by_cases h : i = j
  · subst h; simp [hi]
  · simp [h, Ne.symm h]

theorem lt_size_of_key {es : Array Entry} {i : Nat} {k : Symbol} (h : (entryAt es i).key = some k) :
    i < es.size := by
  by_cases hi : i < es.size
  · exact hi
  · simp [entryAt, Array.getD_eq_getD_getElem?, Array.getElem?_eq_none (Nat.le_of_not_lt hi),
      Entry.empty] at h

theorem slotAfter_lt {es : Array Entry} (i d : Nat) (h : 0 < es.size) : slotAfter es i d < es.size :=
  Nat.mod_lt _ h

theorem slotAfter_zero {es : Array Entry} {i : Nat} (h : i < es.size) : slotAfter es i 0 = i := by
  simp [slotAfter, Nat.mod_eq_of_lt h]

theorem slotAfter_succ (es : Array Entry) (i d : Nat) :
    slotAfter es i (d + 1) = slotAfter es ((i + 1) % es.size) d := by
  simp only [slotAfter, Nat.mod_add_mod]
  rw [show i + (d + 1) = i + 1 + d by omega]

theorem exists_slotAfter {es : Array Entry} {i j : Nat} (hi : i < es.size) (hj : j < es.size) :
    ∃ d < es.size, slotAfter es i d = j := by
  by_cases h : i ≤ j
  · exact ⟨j - i, by omega, by simp only [slotAfter]; rw [Nat.mod_eq_of_lt] <;> omega⟩
  · refine ⟨j + es.size - i, by omega, ?_⟩
    have he : i + (j + es.size - i) = j + es.size := by omega
    simp [slotAfter, he, Nat.mod_eq_of_lt hj]

def Passes (key : Loc) (e : Entry) : Prop :=
  e.isVacant = false ∧ ∀ k, e.key = some k → k.loc ≠ key

theorem probe_succ (es : Array Entry) (key : Loc) (i : Nat) (tombstone : Option Nat) (fuel : Nat) :
    probe es key i tombstone (fuel + 1) =
      match (entryAt es i).key with
      | some k =>
        if k.loc = key then i else probe es key ((i + 1) % es.size) tombstone fuel
      | none =>
        if (entryAt es i).isTombstone then
          probe es key ((i + 1) % es.size) (tombstone <|> some i) fuel
        else tombstone.getD i := rfl

theorem probe_hit {es : Array Entry} {key : Loc} (d fuel : Nat) (i : Nat) (tombstone : Option Nat)
    (hi : i < es.size) (hd : d < fuel) (hp : ∀ d' < d, Passes key (entryAt es (slotAfter es i d')))
    {k : Symbol} (hk : (entryAt es (slotAfter es i d)).key = some k) (hl : k.loc = key) :
    probe es key i tombstone fuel = slotAfter es i d := by
  induction d generalizing fuel i tombstone with
  | zero =>
    obtain ⟨fuel, rfl⟩ : ∃ f, fuel = f + 1 := ⟨fuel - 1, by omega⟩
    rw [slotAfter_zero hi] at hk ⊢
    simp [probe_succ, hk, hl]
  | succ d ih =>
    obtain ⟨fuel, rfl⟩ : ∃ f, fuel = f + 1 := ⟨fuel - 1, by omega⟩
    have h0 := hp 0 (by omega)
    rw [slotAfter_zero hi] at h0
    have hnext : (i + 1) % es.size < es.size := Nat.mod_lt _ (by omega)
    have hrest : ∀ d' < d, Passes key (entryAt es (slotAfter es ((i + 1) % es.size) d')) := by
      intro d' hd'
      rw [← slotAfter_succ]
      exact hp (d' + 1) (by omega)
    rw [slotAfter_succ] at hk ⊢
    have hgo := fun t => ih fuel _ t hnext (by omega) hrest hk
    rw [probe_succ]
    cases hkey : (entryAt es i).key with
    | some k' => simpa [h0.2 k' hkey] using hgo tombstone
    | none =>
      have ht : (entryAt es i).isTombstone = true := by
        rw [Entry.isTombstone_of_key hkey, h0.1]; rfl
      simpa [ht] using hgo (tombstone <|> some i)

theorem probe_miss {es : Array Entry} {key : Loc} (d fuel : Nat) (i : Nat) (tombstone : Option Nat)
    (hi : i < es.size) (hd : d < fuel) (hp : ∀ d' < d, Passes key (entryAt es (slotAfter es i d')))
    (hv : (entryAt es (slotAfter es i d)).isVacant = true) :
    ∃ d' ≤ d, probe es key i tombstone fuel = tombstone.getD (slotAfter es i d') ∧
      (entryAt es (slotAfter es i d')).key = none := by
  induction d generalizing fuel i tombstone with
  | zero =>
    obtain ⟨fuel, rfl⟩ : ∃ f, fuel = f + 1 := ⟨fuel - 1, by omega⟩
    have hkey := Entry.key_of_isVacant hv
    refine ⟨0, Nat.le_refl _, ?_, hkey⟩
    rw [slotAfter_zero hi] at hv hkey ⊢
    have ht : (entryAt es i).isTombstone = false := by
      rw [Entry.isTombstone_of_key hkey, hv]; rfl
    simp [probe_succ, hkey, ht]
  | succ d ih =>
    obtain ⟨fuel, rfl⟩ : ∃ f, fuel = f + 1 := ⟨fuel - 1, by omega⟩
    have h0 := hp 0 (by omega)
    rw [slotAfter_zero hi] at h0
    have hnext : (i + 1) % es.size < es.size := Nat.mod_lt _ (by omega)
    have hrest : ∀ d' < d, Passes key (entryAt es (slotAfter es ((i + 1) % es.size) d')) := by
      intro d' hd'
      rw [← slotAfter_succ]
      exact hp (d' + 1) (by omega)
    rw [slotAfter_succ] at hv
    have hgo := fun t => ih fuel _ t hnext (by omega) hrest hv
    rw [probe_succ]
    cases hkey : (entryAt es i).key with
    | some k' =>
      obtain ⟨d', hle, he, hn⟩ := hgo tombstone
      exact ⟨d' + 1, by omega, by simpa [h0.2 k' hkey, slotAfter_succ] using he,
        by rwa [slotAfter_succ]⟩
    | none =>
      have ht : (entryAt es i).isTombstone = true := by
        rw [Entry.isTombstone_of_key hkey, h0.1]; rfl
      obtain ⟨d', hle, he, hn⟩ := hgo (tombstone <|> some i)
      cases tombstone with
      | none => exact ⟨0, by omega, by simpa [ht, slotAfter_zero hi] using he,
          by rwa [slotAfter_zero hi]⟩
      | some t => exact ⟨d' + 1, by omega, by simpa [ht, slotAfter_succ] using he,
          by rwa [slotAfter_succ]⟩

theorem exists_first {p : Nat → Prop} (d : Nat) (h : p d) : ∃ d₀ ≤ d, p d₀ ∧ ∀ d' < d₀, ¬ p d' := by
  induction d using Nat.strongRecOn with
  | ind d ih =>
    by_cases hn : ∃ d' < d, p d'
    · obtain ⟨d', hd', hp⟩ := hn
      obtain ⟨d₀, hle, h₀⟩ := ih d' hd' hp
      exact ⟨d₀, by omega, h₀⟩
    · exact ⟨d, Nat.le_refl _, h, fun d' hd' hp => hn ⟨d', hd', hp⟩⟩

structure Layout (es : Array Entry) : Prop where
  distinct : ∀ i j k k', (entryAt es i).key = some k → (entryAt es j).key = some k' →
    k.loc = k'.loc → i = j
  path : ∀ j k, (entryAt es j).key = some k → ∃ d < es.size,
    j = slotAfter es (k.hash.toNat % es.size) d ∧
      ∀ d' < d, (entryAt es (slotAfter es (k.hash.toNat % es.size) d')).isVacant = false

theorem not_passes_iff {key : Loc} {e : Entry} :
    ¬ Passes key e ↔ e.isVacant = true ∨ ∃ k, e.key = some k ∧ k.loc = key := by
  simp only [Passes, Classical.not_and_iff_not_or_not, Bool.not_eq_false, Classical.not_forall,
    Classical.not_not, exists_prop]

theorem slotOf_cases {es : Array Entry} (key : Symbol) {v : Nat} (hv : v < es.size)
    (hvac : (entryAt es v).isVacant = true) :
    ∃ d < es.size, slotOf es key = slotAfter es (key.hash.toNat % es.size) d ∧
      (∀ d' < d, Passes key.loc (entryAt es (slotAfter es (key.hash.toNat % es.size) d'))) ∧
      ((∃ k, (entryAt es (slotOf es key)).key = some k ∧ k.loc = key.loc) ∨
        (entryAt es (slotOf es key)).key = none ∧
          ∃ d₁ < es.size, d ≤ d₁ ∧
            (∀ d' < d₁, Passes key.loc (entryAt es (slotAfter es (key.hash.toNat % es.size) d'))) ∧
            (entryAt es (slotAfter es (key.hash.toNat % es.size) d₁)).isVacant = true) := by
  have hstart : key.hash.toNat % es.size < es.size := Nat.mod_lt _ (by omega)
  obtain ⟨dv, hdv, hslot⟩ := exists_slotAfter hstart hv
  obtain ⟨d₁, hle, hstop, hbefore⟩ := exists_first
    (p := fun d => ¬ Passes key.loc (entryAt es (slotAfter es (key.hash.toNat % es.size) d))) dv
    (not_passes_iff.mpr (.inl (by rw [hslot]; exact hvac)))
  have hpass : ∀ d' < d₁, Passes key.loc (entryAt es (slotAfter es (key.hash.toNat % es.size) d')) :=
    fun d' hd' => Classical.not_not.mp (hbefore d' hd')
  rcases not_passes_iff.mp hstop with hvacant | ⟨k, hk, hl⟩
  · obtain ⟨d, hd, he, hn⟩ := probe_miss d₁ es.size _ none hstart (by omega) hpass hvacant
    have he' : slotOf es key = slotAfter es (key.hash.toNat % es.size) d := he
    refine ⟨d, by omega, he', fun d' hd' => hpass d' (by omega), .inr ⟨by rw [he']; exact hn, ?_⟩⟩
    exact ⟨d₁, by omega, hd, hpass, hvacant⟩
  · have he : slotOf es key = slotAfter es (key.hash.toNat % es.size) d₁ :=
      probe_hit d₁ es.size _ none hstart (by omega) hpass hk hl
    exact ⟨d₁, by omega, he, hpass, .inl ⟨k, by rw [he]; exact hk, hl⟩⟩

theorem slotOf_lt {es : Array Entry} (key : Symbol) {v : Nat} (hv : v < es.size)
    (hvac : (entryAt es v).isVacant = true) : slotOf es key < es.size := by
  obtain ⟨d, -, he, -⟩ := slotOf_cases key hv hvac
  rw [he]
  exact slotAfter_lt _ _ (by omega)

theorem slotOf_eq {es : Array Entry} (hl : Layout es) {key : Symbol} {v j : Nat} (hv : v < es.size)
    (hvac : (entryAt es v).isVacant = true) (hj : (entryAt es j).key = some key) :
    slotOf es key = j := by
  obtain ⟨d, hd, he, hpass, ⟨k, hk, hkl⟩ | ⟨-, d₁, hd₁, hle, hpass₁, hvac₁⟩⟩ :=
    slotOf_cases key hv hvac
  · exact hl.distinct _ _ _ _ hk hj hkl
  · obtain ⟨dj, hdj, hje, hnv⟩ := hl.path j key hj
    by_cases hlt : dj < d₁
    · exact absurd rfl ((hpass₁ dj hlt).2 key (by rw [← hje]; exact hj))
    · rcases Nat.lt_or_eq_of_le (Nat.le_of_not_lt hlt) with h | h
      · rw [hnv d₁ h] at hvac₁; cases hvac₁
      · rw [h, ← hje, Entry.isVacant_eq_false_of_key hj] at hvac₁; cases hvac₁

end Table

end Lox

namespace Lox.Table

def occupied (es : Array Entry) : Nat :=
  es.countP fun e => !e.isVacant

def bound (es : Array Entry) : Nat :=
  es.countP fun e => e.key.isSome

theorem countP_setIfInBounds (p : Entry → Bool) (es : Array Entry) (i : Nat) (e : Entry)
    (hi : i < es.size) : (es.setIfInBounds i e).countP p + (if p (entryAt es i) then 1 else 0) =
      es.countP p + if p e then 1 else 0 := by
  have he : entryAt es i = es[i] := by simp [entryAt, Array.getD_eq_getD_getElem?, hi]
  have hset : es.setIfInBounds i e = es.set i e hi := by simp [Array.setIfInBounds, hi]
  rw [hset, Array.countP_set, he]
  have hpos : p es[i] = true → 0 < es.countP p := fun h =>
    Array.countP_pos_iff.mpr ⟨es[i], Array.getElem_mem hi, h⟩
  by_cases h : p es[i]
  · have := hpos h
    simp only [h, ↓reduceIte]
    omega
  · simp [h]

theorem bound_le_occupied (es : Array Entry) : bound es ≤ occupied es := by
  apply Array.countP_mono_left
  intro e _ h
  obtain ⟨k, hk⟩ := Option.isSome_iff_exists.mp h
  simp [Entry.isVacant_eq_false_of_key hk]

theorem exists_vacant {es : Array Entry} (h : occupied es < es.size) :
    ∃ v < es.size, (entryAt es v).isVacant = true := by
  have hne : ¬ ∀ e ∈ es, (!e.isVacant) = true := fun hall => by
    have := Array.countP_eq_size.mpr hall
    unfold occupied at h
    omega
  simp only [Classical.not_forall, Bool.not_eq_true', Bool.not_eq_false, exists_prop] at hne
  obtain ⟨e, he, hv⟩ := hne
  obtain ⟨i, hi, rfl⟩ := Array.mem_iff_getElem.mp he
  exact ⟨i, hi, by simpa [entryAt, Array.getD_eq_getD_getElem?, hi] using hv⟩

def Agrees (es : Array Entry) (key : Symbol) : Prop :=
  ∀ i k, (entryAt es i).key = some k → k.loc = key.loc → k = key

theorem slotOf_key_none {es : Array Entry} (hl : Layout es) {key : Symbol} (ha : Agrees es key)
    (hroom : occupied es < es.size) (hn : (entryAt es (slotOf es key)).key = none) (i : Nat)
    (k : Symbol) (hk : (entryAt es i).key = some k) : k.loc ≠ key.loc := by
  intro he
  obtain ⟨v, hv, hvac⟩ := exists_vacant hroom
  obtain rfl := ha i k hk he
  rw [slotOf_eq hl hv hvac hk, hk] at hn
  cases hn

theorem slotOf_key_some {es : Array Entry} {key : Symbol} (ha : Agrees es key)
    (hroom : occupied es < es.size) {k : Symbol} (hk : (entryAt es (slotOf es key)).key = some k) :
    k = key := by
  obtain ⟨v, hv, hvac⟩ := exists_vacant hroom
  obtain ⟨d, -, -, -, ⟨k', hk', hl⟩ | ⟨hn, -⟩⟩ := slotOf_cases key hv hvac
  · rw [hk] at hk'
    cases hk'
    exact ha _ _ hk hl
  · rw [hk] at hn; cases hn

theorem layout_set {es : Array Entry} (hl : Layout es) {i : Nat} (hi : i < es.size) (e : Entry)
    (hv : e.isVacant = false)
    (hkey : ∀ k, e.key = some k → (∀ j k', (entryAt es j).key = some k' → k.loc = k'.loc → j = i) ∧
      ∃ d < es.size, i = slotAfter es (k.hash.toNat % es.size) d ∧
        ∀ d' < d, (entryAt es (slotAfter es (k.hash.toNat % es.size) d')).isVacant = false) :
    Layout (es.setIfInBounds i e) := by
  have hat := fun j => entryAt_set es i j e hi
  have hslot : ∀ s d, slotAfter (es.setIfInBounds i e) s d = slotAfter es s d := by
    simp [slotAfter]
  have hkeep : ∀ j, (entryAt es j).isVacant = false →
      (entryAt (es.setIfInBounds i e) j).isVacant = false := by
    intro j hj
    rw [hat]
    split
    · exact hv
    · exact hj
  constructor
  · intro a b k k' ha hb hloc
    rw [hat] at ha hb
    split at ha <;> split at hb
    · omega
    · rename_i h1 h2
      exact absurd ((hkey k ha).1 b k' hb hloc) h2
    · rename_i h1 h2
      exact absurd ((hkey k' hb).1 a k ha hloc.symm) h1
    · exact hl.distinct a b k k' ha hb hloc
  · intro j k hj
    rw [hat] at hj
    split at hj
    · rename_i h
      subst h
      obtain ⟨d, hd, he, hp⟩ := (hkey k hj).2
      exact ⟨d, by simpa using hd, by simpa [hslot] using he,
        fun d' hd' => hkeep _ (by simpa [hslot] using hp d' hd')⟩
    · obtain ⟨d, hd, he, hp⟩ := hl.path j k hj
      exact ⟨d, by simpa using hd, by simpa [hslot] using he,
        fun d' hd' => hkeep _ (by simpa [hslot] using hp d' hd')⟩

theorem layout_place {es : Array Entry} (hl : Layout es) {key : Symbol} (v : Value)
    (ha : Agrees es key) (hroom : occupied es < es.size) : Layout (place es key v) := by
  obtain ⟨w, hw, hvac⟩ := exists_vacant hroom
  obtain ⟨d, hd, he, hpass, hend⟩ := slotOf_cases key hw hvac
  apply layout_set hl (slotOf_lt key hw hvac)
  · exact Entry.isVacant_eq_false_of_key rfl
  · rintro k ⟨⟩
    refine ⟨fun j k' hj hloc => ?_, d, hd, he, fun d' hd' => (hpass d' hd').1⟩
    obtain rfl := ha j k' hj hloc.symm
    exact (slotOf_eq hl hw hvac hj).symm

def Binds (t : Table) (k : Symbol) (v : Value) : Prop :=
  ∃ i, entryAt t.entries i = ⟨some k, v⟩

structure Sound (t : Table) : Prop where
  layout : Layout t.entries
  count_eq : t.count = occupied t.entries
  live_eq : t.live = bound t.entries
  room : 4 * t.count ≤ 3 * t.entries.size

theorem sound_empty : Sound .empty where
  layout := ⟨by simp [empty, entryAt, Entry.empty], by simp [empty, entryAt, Entry.empty]⟩
  count_eq := rfl
  live_eq := rfl
  room := Nat.le_refl _

theorem not_binds_empty (k : Symbol) (v : Value) : ¬ Binds .empty k v := by
  rintro ⟨i, h⟩
  simp [empty, entryAt, Entry.empty] at h

theorem binds_of_key {t : Table} {i : Nat} {k : Symbol} (h : (entryAt t.entries i).key = some k) :
    t.Binds k (entryAt t.entries i).value := by
  refine ⟨i, ?_⟩
  cases he : entryAt t.entries i
  simp_all

theorem agrees_of_binds {t : Table} {key : Symbol}
    (h : ∀ k v, t.Binds k v → k.loc = key.loc → k = key) : Agrees t.entries key :=
  fun _ k hk hl => h k _ (binds_of_key hk) hl

theorem Sound.occupied_lt {t : Table} (ht : t.Sound) (h : 0 < t.entries.size) :
    occupied t.entries < t.entries.size := by
  have := ht.room
  rw [ht.count_eq] at this
  omega

theorem Sound.binds_of_live {t : Table} (ht : t.Sound) (h : t.live = 0) (k : Symbol) (v : Value) :
    ¬ t.Binds k v := by
  rintro ⟨i, hi⟩
  have hlt : i < t.entries.size := lt_size_of_key (k := k) (by rw [hi])
  rw [ht.live_eq, bound, Array.countP_eq_zero] at h
  have := h (entryAt t.entries i)
    (by simp [entryAt, Array.getD_eq_getD_getElem?, hlt])
  rw [hi] at this
  simp at this

theorem Sound.size_pos_of_live {t : Table} (ht : t.Sound) (h : t.live ≠ 0) :
    0 < t.entries.size := by
  apply Nat.pos_of_ne_zero
  intro h0
  apply h
  rw [ht.live_eq, bound, Array.eq_empty_of_size_eq_zero h0]
  rfl

theorem get?_eq_some_iff {t : Table} (ht : t.Sound) {key : Symbol} (ha : Agrees t.entries key)
    {v : Value} : t.get? key = some v ↔ t.Binds key v := by
  unfold get?
  split
  · rename_i h0
    exact ⟨nofun, fun h => absurd h (ht.binds_of_live h0 key v)⟩
  · rename_i h0
    have hroom := ht.occupied_lt (ht.size_pos_of_live h0)
    simp only [Option.map_eq_some_iff, getD_eq_entryAt]
    constructor
    · rintro ⟨k, hk, rfl⟩
      obtain rfl := slotOf_key_some ha hroom hk
      exact binds_of_key hk
    · rintro ⟨i, hi⟩
      obtain ⟨w, hw, hvac⟩ := exists_vacant hroom
      rw [slotOf_eq ht.layout hw hvac (by rw [hi]), hi]
      exact ⟨key, rfl, rfl⟩

theorem get?_eq_none_iff {t : Table} (ht : t.Sound) {key : Symbol} (ha : Agrees t.entries key) :
    t.get? key = none ↔ ∀ v, ¬ t.Binds key v := by
  rw [Option.eq_none_iff_forall_ne_some]
  exact forall_congr' fun v => not_congr (get?_eq_some_iff ht ha)

theorem isCrowded_eq_false {t : Table} :
    t.isCrowded = false ↔ 4 * (t.count + 1) ≤ 3 * t.entries.size := by
  simp [isCrowded]

theorem insert_of_key {t : Table} {key k : Symbol} (v : Value)
    (h : (entryAt t.entries (slotOf t.entries key)).key = some k) :
    t.insert key v = (false, ⟨place t.entries key v, t.count, t.live⟩) := by
  simp only [Table.insert, getD_eq_entryAt, h]
  rfl

theorem insert_of_no_key {t : Table} {key : Symbol} (v : Value)
    (h : (entryAt t.entries (slotOf t.entries key)).key = none) :
    t.insert key v = (true, ⟨place t.entries key v,
      if (entryAt t.entries (slotOf t.entries key)).isVacant then t.count + 1 else t.count,
      t.live + 1⟩) := by
  simp only [Table.insert, getD_eq_entryAt, h, Entry.isTombstone_of_key h]
  cases (entryAt t.entries (slotOf t.entries key)).isVacant <;> rfl

theorem Sound.insert {t : Table} (ht : t.Sound) {key : Symbol} (v : Value)
    (ha : Agrees t.entries key) (hc : t.isCrowded = false) : (t.insert key v).2.Sound := by
  rw [isCrowded_eq_false] at hc
  have hroom : occupied t.entries < t.entries.size := ht.occupied_lt (by omega)
  have hl := layout_place ht.layout v ha hroom
  obtain ⟨w, hw, hvac⟩ := exists_vacant hroom
  have hlt := slotOf_lt key hw hvac
  have hocc := countP_setIfInBounds (fun e => !e.isVacant) t.entries _ ⟨some key, v⟩ hlt
  have hbound := countP_setIfInBounds (fun e => e.key.isSome) t.entries _ ⟨some key, v⟩ hlt
  have hfull : (⟨some key, v⟩ : Entry).isVacant = false := Entry.isVacant_eq_false_of_key rfl
  simp only [hfull, Bool.not_false, Option.isSome_some, ↓reduceIte] at hocc hbound
  have hcount := ht.count_eq
  have hlive := ht.live_eq
  unfold occupied at hcount
  unfold bound at hlive
  cases hkey : (entryAt t.entries (slotOf t.entries key)).key with
  | some k =>
    rw [insert_of_key v hkey]
    rw [Entry.isVacant_eq_false_of_key hkey] at hocc
    simp only [hkey, Option.isSome_some, Bool.not_false, ↓reduceIte] at hocc hbound
    refine ⟨hl, ?_, ?_, by simpa [place] using ht.room⟩
    · simp only [occupied, place]; omega
    · simp only [bound, place]; omega
  | none =>
    rw [insert_of_no_key v hkey]
    simp only [hkey, Option.isSome_none, Bool.false_eq_true, ↓reduceIte, Nat.add_zero] at hbound
    refine ⟨hl, ?_, by simp only [bound, place]; omega, ?_⟩
    · simp only [occupied, place]
      cases hvac : (entryAt t.entries (slotOf t.entries key)).isVacant <;> simp [hvac] at hocc ⊢ <;>
        omega
    · simp only [place, Array.size_setIfInBounds]
      split <;> omega

theorem insert_entries (t : Table) (key : Symbol) (v : Value) :
    (t.insert key v).2.entries = place t.entries key v := by
  simp only [Table.insert]
  split <;> rfl

theorem binds_place {es : Array Entry} (hl : Layout es) {key : Symbol} (ha : Agrees es key)
    (hroom : occupied es < es.size) (v : Value) (k : Symbol) (w : Value) :
    (∃ i, entryAt (place es key v) i = ⟨some k, w⟩) ↔
      k = key ∧ w = v ∨ k.loc ≠ key.loc ∧ ∃ i, entryAt es i = ⟨some k, w⟩ := by
  obtain ⟨u, hu, hvac⟩ := exists_vacant hroom
  have hlt := slotOf_lt key hu hvac
  have hat := fun j => entryAt_set es (slotOf es key) j ⟨some key, v⟩ hlt
  constructor
  · rintro ⟨j, hj⟩
    rw [place, hat] at hj
    split at hj
    · left; simp at hj; exact ⟨hj.1.symm, hj.2.symm⟩
    · rename_i hne
      right
      refine ⟨fun he => hne ?_, j, hj⟩
      obtain rfl := ha j k (by rw [hj]) he
      exact (slotOf_eq hl hu hvac (by rw [hj])).symm
  · rintro (⟨rfl, rfl⟩ | ⟨hne, j, hj⟩)
    · exact ⟨slotOf es k, by rw [place, hat]; simp⟩
    · refine ⟨j, ?_⟩
      rw [place, hat, if_neg, hj]
      rintro rfl
      exact hne (congrArg Symbol.loc (slotOf_key_some ha hroom (by rw [hj])))

theorem binds_insert {t : Table} (ht : t.Sound) {key : Symbol} (ha : Agrees t.entries key)
    (hc : t.isCrowded = false) (v : Value) (k : Symbol) (w : Value) :
    (t.insert key v).2.Binds k w ↔ k = key ∧ w = v ∨ k.loc ≠ key.loc ∧ t.Binds k w := by
  rw [isCrowded_eq_false] at hc
  simp only [Binds, insert_entries]
  exact binds_place ht.layout ha (ht.occupied_lt (by omega)) v k w

theorem insert_fst {t : Table} (ht : t.Sound) {key : Symbol} (ha : Agrees t.entries key)
    (hc : t.isCrowded = false) (v : Value) :
    (t.insert key v).1 = true ↔ ∀ w, ¬ t.Binds key w := by
  rw [isCrowded_eq_false] at hc
  have hroom := ht.occupied_lt (by omega)
  cases hkey : (entryAt t.entries (slotOf t.entries key)).key with
  | some k =>
    obtain rfl := slotOf_key_some ha hroom hkey
    simpa [insert_of_key v hkey] using ⟨_, binds_of_key hkey⟩
  | none =>
    simp only [insert_of_no_key v hkey, true_iff]
    rintro w ⟨i, hi⟩
    exact slotOf_key_none ht.layout ha hroom hkey i key (by rw [hi]) rfl

end Lox.Table
