import Lox.Proofs.Heap.Intern

namespace Lox

namespace Heap

variable {h : Heap}

structure KeepsStrings (f : Body → Body) : Prop where
  string : ∀ chars hash, f (.string chars hash) = .string chars hash
  other : ∀ b, b.kind ≠ .string → (f b).kind ≠ .string

theorem objects_updateBody (l k : Loc) (f : Body → Body) : (h.updateBody l f).objects[k]? =
    (h.objects[k]?).map fun o => if k = l then { o with body := f o.body } else o := by
  rw [updateBody, objects_update]
  by_cases hk : k = l
  · simp only [hk, ↓reduceIte]
  · simp [hk]

theorem alive_updateBody (l k : Loc) (f : Body → Body) :
    (h.updateBody l f).Alive k ↔ h.Alive k := by
  simp only [Alive, objects_updateBody, Option.map_eq_some_iff]
  constructor
  · rintro ⟨o, ⟨p, hp, rfl⟩, hf⟩
    refine ⟨p, hp, ?_⟩
    split at hf <;> exact hf
  · rintro ⟨o, ho, hf⟩
    refine ⟨_, ⟨o, ho, rfl⟩, ?_⟩
    split <;> exact hf

theorem KeepsStrings.eq_string {f : Body → Body} (hf : KeepsStrings f) {b : Body} {chars : Bytes}
    {hash : UInt32} : f b = .string chars hash ↔ b = .string chars hash := by
  constructor
  · intro hb
    cases b with
    | string chars' hash' => rwa [hf.string] at hb
    | _ => exact absurd (congrArg Body.kind hb) (hf.other _ (by simp [Body.kind]))
  · rintro rfl
    exact hf.string _ _

theorem isString_updateBody {f : Body → Body} (hf : KeepsStrings f) {l k : Loc} {chars : Bytes}
    {hash : UInt32} : (h.updateBody l f).IsString k chars hash ↔ h.IsString k chars hash := by
  simp only [IsString, objects_updateBody, Option.map_eq_some_iff]
  constructor
  · rintro ⟨o, ⟨p, hp, rfl⟩, ho, hb⟩
    refine ⟨p, hp, ?_, ?_⟩
    · split at ho <;> exact ho
    · split at hb
      · exact hf.eq_string.mp hb
      · exact hb
  · rintro ⟨o, ho, hfree, hb⟩
    refine ⟨_, ⟨o, ho, rfl⟩, ?_, ?_⟩
    · split <;> exact hfree
    · split
      · exact hf.eq_string.mpr hb
      · exact hb

def mapFunction (g : Function → Function) : Body → Body
  | .function f => .function (g f)
  | b => b

theorem keepsStrings_mapFunction (g : Function → Function) : KeepsStrings (mapFunction g) :=
  ⟨fun _ _ => rfl, fun b hb => by cases b <;> simp_all [Body.kind, mapFunction]⟩

def tableIn : Body → Option Table
  | .class_ c => some c.methods
  | .instance_ i => some i.fields
  | _ => none

def mapTable (f : Table → Table) : Body → Body
  | .class_ ⟨name, methods⟩ => .class_ ⟨name, f methods⟩
  | .instance_ ⟨class_, fields⟩ => .instance_ ⟨class_, f fields⟩
  | b => b

theorem keepsStrings_mapTable (f : Table → Table) : KeepsStrings (mapTable f) :=
  ⟨fun _ _ => rfl, fun b hb => by cases b <;> simp_all [Body.kind, mapTable]⟩

theorem tableIn_mapTable (f : Table → Table) (b : Body) :
    tableIn (mapTable f b) = (tableIn b).map f := by
  cases b <;> rfl

theorem updateBody_congr {l : Loc} {o : Object} {f g : Body → Body} (ho : h.objects[l]? = some o)
    (hfg : f o.body = g o.body) : h.updateBody l f = h.updateBody l g := by
  unfold updateBody update
  congr 1
  apply Array.ext_getElem?
  intro k
  rw [Array.getElem?_modify, Array.getElem?_modify]
  split
  · next hk =>
    subst hk
    rw [ho]
    simp only [Option.map_some, hfg]
  · rfl

def closeBody (v : Value) : Body → Body
  | .upvalue _ => .upvalue (.closed v)
  | b => b

theorem keepsStrings_closeBody (v : Value) : KeepsStrings (closeBody v) :=
  ⟨fun _ _ => rfl, fun b hb => by cases b <;> simp_all [Body.kind, closeBody]⟩

theorem Consistent.updateBody (hc : h.Consistent) (l : Loc) {f : Body → Body}
    (hf : KeepsStrings f) : (h.updateBody l f).Consistent where
  unmarked k o ho := by
    rw [objects_updateBody] at ho
    obtain ⟨p, hp, rfl⟩ := Option.map_eq_some_iff.mp ho
    split <;> exact hc.unmarked k p hp
  gray := hc.gray
  idle := hc.idle
  nodup := hc.nodup
  live k := (hc.live k).trans (alive_updateBody l k f).symm
  named k o ho hfree := by
    rw [objects_updateBody] at ho
    obtain ⟨p, hp, rfl⟩ := Option.map_eq_some_iff.mp ho
    split at hfree <;> split <;> exact hc.named k p hp hfree
  owner i k hi := by
    obtain ⟨o, ho, hfree, hr⟩ := hc.owner i k hi
    refine ⟨_, by rw [objects_updateBody, ho]; rfl, ?_, ?_⟩
    · split <;> exact hfree
    · split <;> exact hr
  zero := hc.zero
  size := hc.size
  spare := hc.spare
  spare_nodup := hc.spare_nodup
  strings := hc.strings
  interned k v hb := (isString_updateBody hf).mpr (hc.interned k v hb)

theorem Sound.updateBody (hs : h.Sound) (l : Loc) {f : Body → Body} (hf : KeepsStrings f) :
    (h.updateBody l f).Sound where
  consistent := hs.consistent.updateBody l hf
  strings :=
    { hashed := fun k chars hash hk => hs.strings.hashed k chars hash ((isString_updateBody hf).mp hk)
      unique := fun k j chars hash hash' hk hj => hs.strings.unique k j chars hash hash'
        ((isString_updateBody hf).mp hk) ((isString_updateBody hf).mp hj)
      bound := fun k chars hash hk =>
        hs.strings.bound k chars hash ((isString_updateBody hf).mp hk) }

theorem steady_updateBody (l : Loc) {f : Body → Body} (hf : KeepsStrings f) :
    h.Steady (h.updateBody l f) where
  size := Nat.le_of_eq (by rw [updateBody, update, Array.size_modify])
  alive k _ ha := (alive_updateBody l k f).mp ha
  isString _ _ _ hs _ := (isString_updateBody hf).mpr hs

theorem Sound.congr {h' : Heap} (hs : h.Sound) (hsame : h.SameStore h') : h'.Sound where
  consistent := hs.consistent.congr hsame
  strings := by
    have hstr : ∀ l chars hash, h'.IsString l chars hash ↔ h.IsString l chars hash := by
      intro l chars hash
      simp only [IsString, hsame.objects]
    exact
      { hashed := fun k chars hash hk => hs.strings.hashed k chars hash ((hstr _ _ _).mp hk)
        unique := fun k j chars hash hash' hk hj => hs.strings.unique k j chars hash hash'
          ((hstr _ _ _).mp hk) ((hstr _ _ _).mp hj)
        bound := fun k chars hash hk => by
          rw [hsame.strings]
          exact hs.strings.bound k chars hash ((hstr _ _ _).mp hk) }

end Heap

namespace HeapM

open Heap HeapView

variable {α β : Type}

structure Keeps (act : HeapM α) : Prop where
  grows : Grows act
  sound : ∀ r h, h.Sound → Delivers True r h act fun _ h' => h'.Sound ∧ h.Steady h'

theorem Keeps.bind {x : HeapM α} {f : α → HeapM β} (hx : Keeps x) (hf : ∀ a, Keeps (f a)) :
    Keeps (x >>= f) where
  grows := hx.grows.bind fun a => (hf a).grows
  sound r h hs := by
    refine (hx.sound r h hs).bind (fun a => (hf a).grows) fun a h' hs' => ?_
    refine ((hf a).sound r h' hs'.1).imp fun b h'' hs'' => ?_
    exact ⟨hs''.1, hs'.2.trans hs''.2⟩

theorem keeps_pure (a : α) : Keeps (pure a : HeapM α) :=
  ⟨grows_pure a, fun _ _ hs => delivers_pure ⟨hs, .of_objects rfl⟩⟩

theorem keeps_throw (e : Fault) : Keeps (throw e : HeapM α) :=
  ⟨grows_throw e, fun _ _ _ => .inr trivial⟩

theorem keeps_view (view : HeapView α) : Keeps (liftM view : HeapM α) := by
  refine ⟨grows_view view, fun r h hs => ?_⟩
  unfold Delivers
  rw [run_view]
  cases view h with
  | ok a => exact .inr ⟨hs, .of_objects rfl⟩
  | error e => exact .inr trivial

theorem keeps_ite {c : Prop} [Decidable c] {x y : HeapM α} (hx : Keeps x) (hy : Keeps y) :
    Keeps (if c then x else y) := by
  split
  · exact hx
  · exact hy

theorem Keeps.tryFinally {x : HeapM α} {y : HeapM β} (hx : Keeps x) (hy : Keeps y) :
    Keeps (tryFinally x y) := by
  refine ⟨hx.grows.tryFinally hy.grows, fun r h hs => ?_⟩
  have h₁ := hx.sound r h hs
  unfold Delivers at h₁ ⊢
  rw [run_finally]
  cases hxr : x r h with
  | error e h' =>
    simp only []
    cases y r h' <;> exact .inr trivial
  | ok a h' =>
    rw [hxr] at h₁
    simp only []
    have hgrow := hy.grows r h'
    rcases h₁ with hex | hs'
    · have hend : Exhausted (finalState (y r h')) := Nat.lt_of_lt_of_le hex hgrow
      cases hyr : y r h' <;> rw [hyr] at hend <;> exact .inl hend
    · have h₂ := (hy.sound r h' hs'.1).imp fun _ h'' hs'' =>
        And.intro hs''.1 (hs'.2.trans hs''.2)
      unfold Delivers at h₂
      cases hyr : y r h' <;> rw [hyr] at h₂
      · exact h₂
      · exact .inr trivial

theorem keeps_updateBody (l : Loc) {f : Body → Body} (hf : KeepsStrings f) :
    Keeps (modify (·.updateBody l f) : HeapM Unit) :=
  ⟨grows_updateBody l f, fun _ _ hs => delivers_modify ⟨hs.updateBody l hf, steady_updateBody l hf⟩⟩

theorem keeps_account (delta : Int) : Keeps (account delta) :=
  ⟨grows_account delta, fun _ _ hs =>
    (delivers_account hs.consistent (fun _ => trivial) delta).imp fun _ _ hch =>
      ⟨hch.sound hs, hch.steady⟩⟩

theorem keeps_collect : Keeps collect := by
  refine ⟨grows_collect, fun r h hs => ?_⟩
  unfold Delivers
  cases hrun : collect r h with
  | error e h' => exact .inr trivial
  | ok c h' =>
    have hi := intact_of_collect r hs.consistent hrun
    obtain ⟨c', h₁, hok, hcol⟩ := collect_ok r hs.consistent hi
    rw [hrun] at hok
    cases hok
    exact .inr ⟨(hcol.charged hi).sound hs, (hcol.charged hi).steady⟩

theorem keeps_hold (v : Value) : Keeps (hold v) :=
  ⟨grows_hold v, fun _ _ hs =>
    .inr ⟨hs.congr ⟨rfl, rfl, rfl, rfl, rfl, rfl, rfl⟩, .of_objects rfl⟩⟩

theorem keeps_unhold (depth : Nat) : Keeps (unhold depth) := by
  refine ⟨grows_unhold depth, fun r h hs => ?_⟩
  unfold Delivers
  rw [unhold_eq]
  by_cases hd : h.holds.length ≠ depth
  · rw [if_pos hd]
    exact .inr trivial
  · rw [if_neg hd]
    exact .inr ⟨hs.congr ⟨rfl, rfl, rfl, rfl, rfl, rfl, rfl⟩, .of_objects rfl⟩

theorem keeps_addRoots (k : RootMarker) : Keeps (addRoots k) :=
  ⟨grows_addRoots k, fun _ _ hs =>
    .inr ⟨hs.congr ⟨rfl, rfl, rfl, rfl, rfl, rfl, rfl⟩, .of_objects rfl⟩⟩

theorem keeps_removeRoots (k : RootMarker) : Keeps (removeRoots k) :=
  ⟨grows_removeRoots k, fun _ _ hs =>
    .inr ⟨hs.congr ⟨rfl, rfl, rfl, rfl, rfl, rfl, rfl⟩, .of_objects rfl⟩⟩

theorem keeps_intern (chars : Bytes) : Keeps (intern chars) :=
  ⟨grows_intern chars, fun _ _ hs =>
    (delivers_intern hs (fun _ => trivial) chars).imp fun _ _ hi => ⟨hi.sound, hi.steady⟩⟩

theorem keeps_allocate (body : Body) (hb : body.kind ≠ .string) (size : Nat) :
    Keeps (allocate body size) := by
  refine ⟨grows_allocate body size, fun r h hs => ?_⟩
  refine (delivers_allocate hs.consistent (fun _ => trivial) body size).imp fun l h' ha => ?_
  obtain ⟨h₁, hch, -, rfl, hroom⟩ := ha
  exact ⟨(hch.sound hs).link body size hb hroom, hch.steady.trans (.link body size)⟩

theorem keeps_newClosure (function : Loc) : Keeps (newClosure function) := by
  apply (keeps_view _).bind
  intro f
  have hnew := keeps_allocate (.closure ⟨function, Array.replicate f.upvalueCount.toNat none⟩)
    (by simp [Body.kind]) (72 + f.upvalueCount.toNat * 8)
  exact keeps_ite ((keeps_throw _).bind fun _ => hnew) hnew

theorem keeps_modifyFunction (l : Loc) (f : Function → Function) : Keeps (modifyFunction l f) :=
  keeps_updateBody l (keepsStrings_mapFunction f)

theorem keeps_modifyChunk (l : Loc) (f : Chunk → Chunk) : Keeps (modifyChunk l f) :=
  keeps_modifyFunction l _

theorem keeps_modifyTable (l : Loc) (f : Table → Table) : Keeps (modifyTable l f) :=
  keeps_updateBody l (keepsStrings_mapTable f)

theorem tableOf_eq {h : Heap} {l : Loc} {o : Object} {t : Table} (ho : h.objects[l]? = some o)
    (ht : tableIn o.body = some t) : tableOf l h = .ok t := by
  rw [tableOf, view_bind, object_eq, ho]
  cases hb : o.body <;> rw [hb] at ht <;> cases ht <;> simp only [hb] <;> rfl

theorem objects_mapTable {h : Heap} {l : Loc} {o : Object} {t : Table} (f : Table → Table)
    (ho : h.objects[l]? = some o) (ht : tableIn o.body = some t) :
    ∃ o', (h.updateBody l (mapTable f)).objects[l]? = some o' ∧ o'.freed = o.freed ∧
      tableIn o'.body = some (f t) := by
  refine ⟨{ o with body := mapTable f o.body }, ?_, rfl, ?_⟩
  · rw [objects_updateBody, ho]
    simp
  · rw [tableIn_mapTable, ht]
    rfl

theorem keeps_writeByte (l : Loc) (b : UInt8) (line : Int) : Keeps (writeByte l b line) := by
  apply (keeps_view _).bind
  intro f
  have hlines : Keeps (do
      let chunk := (← functionAt l).chunk
      if chunk.lines.isFull then
        let old := chunk.lines.capacity
        account ((nextCapacity old - old : Nat) * 8)
        modifyChunk l fun c =>
          ⟨c.code, c.lines.growTo (nextCapacity old), c.constants⟩
      modifyChunk l fun c => ⟨c.code, c.lines.push line, c.constants⟩ : HeapM Unit) := by
    apply (keeps_view _).bind
    intro f
    exact keeps_ite ((keeps_account _).bind fun _ => (keeps_modifyChunk l _).bind
      fun _ => keeps_modifyChunk l _) (keeps_modifyChunk l _)
  exact keeps_ite ((keeps_account _).bind fun _ => (keeps_modifyChunk l _).bind
    fun _ => (keeps_modifyChunk l _).bind fun _ => hlines)
    ((keeps_modifyChunk l _).bind fun _ => hlines)

theorem keeps_patchByte (l : Loc) (offset : Nat) (b : UInt8) : Keeps (patchByte l offset b) := by
  apply (keeps_view _).bind
  intro f
  exact keeps_ite ((keeps_throw _).bind fun _ => keeps_modifyChunk l _) (keeps_modifyChunk l _)

theorem keeps_pushConstant (l : Loc) (v : Value) : Keeps (pushConstant l v) := by
  apply (keeps_view _).bind
  intro f
  have hrest : Keeps (do
      modifyChunk l fun c => ⟨c.code, c.lines, c.constants.push v⟩
      return (← functionAt l).chunk.constants.size - 1 : HeapM Nat) :=
    (keeps_modifyChunk l _).bind fun _ => (keeps_view _).bind fun _ => keeps_pure _
  exact keeps_ite ((keeps_account _).bind fun _ => (keeps_modifyChunk l _).bind fun _ => hrest) hrest

theorem keeps_addConstant (l : Loc) (v : Value) : Keeps (addConstant l v) :=
  (keeps_hold v).bind fun depth => (keeps_pushConstant l v).tryFinally (keeps_unhold depth)

theorem keeps_setEntry (l : Loc) (key : Symbol) (v : Value) : Keeps (setEntry l key v) := by
  apply (keeps_view _).bind
  intro t
  have hrest : Keeps (do
      let t ← tableOf l
      modifyTable l fun _ => (t.insert key v).2
      return (t.insert key v).1 : HeapM Bool) :=
    (keeps_view _).bind fun t => (keeps_modifyTable l _).bind fun _ => keeps_pure _
  exact keeps_ite ((keeps_account _).bind fun _ => (keeps_modifyTable l _).bind fun _ => hrest) hrest

theorem keeps_copyEntries (source target : Loc) (i left : Nat) :
    Keeps (copyEntries source target i left) := by
  induction left generalizing i with
  | zero => exact keeps_pure ()
  | succ left ih =>
    apply (keeps_view _).bind
    intro t
    cases t.entries[i]? with
    | none => exact keeps_throw _
    | some e =>
      cases hk : e.key with
      | none => simpa only [hk] using ih (i + 1)
      | some key => simpa only [hk] using (keeps_setEntry _ _ _).bind fun _ => ih (i + 1)

theorem keeps_inheritEntries (source target : Loc) : Keeps (inheritEntries source target) :=
  (keeps_view _).bind fun _ => keeps_copyEntries _ _ _ _

end HeapM

end Lox
