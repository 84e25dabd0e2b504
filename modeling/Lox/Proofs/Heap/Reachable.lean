import Lox.Proofs.Heap.Edges
import Lox.Proofs.Heap.Keep
import Mathlib.Data.List.Induction

/-!
The heaps that the operations lead to, and what a collection does to each of them.
-/

namespace Lox

namespace Bytes

/-- The 32-bit FNV-1a hash, from the offset basis on: an exclusive or with each byte, and after it a
multiplication by the prime. -/
inductive Fnv1a : Bytes → Nat → Prop
  | basis : Fnv1a [] 2166136261
  | byte {b : Bytes} {n : Nat} (c : UInt8) : Fnv1a b n → Fnv1a (b ++ [c]) ((n ^^^ c.toNat) * 16777619 % 2 ^ 32)

theorem fnv1a_hash (b : Bytes) : Fnv1a b b.hash.toNat := by
  induction b using List.reverseRecOn with
  | nil => exact .basis
  | append_singleton b c ih =>
    have hstep : hash (b ++ [c]) = (hash b ^^^ c.toUInt32) * 16777619 := by simp [hash]
    rw [hstep, UInt32.toNat_mul, UInt32.toNat_xor, UInt8.toNat_toUInt32]
    exact .byte c ih

end Bytes

namespace Heap

variable {h h' : Heap}

theorem sound_new (options : GcOptions) : (new options).Sound where
  consistent :=
    { unmarked := by simp [new]
      gray := rfl
      idle := rfl
      nodup := List.nodup_nil
      live := by simp [new, Alive]
      named := by simp [new]
      owner := fun i l hi => by
        simp only [new, List.getElem?_toArray] at hi
        cases i <;> simp at hi
      zero := rfl
      size := by simp [new]
      spare := by simp [new]
      spare_nodup := List.nodup_nil
      strings := Table.sound_empty
      interned := fun k v hb => absurd hb (Table.not_binds_empty k v) }
  strings :=
    { hashed := by simp [new, IsString]
      unique := by simp [new, IsString]
      bound := by simp [new, IsString] }

theorem isMarked_release (hu : ∀ (l : Loc) (o : Object), h.objects[l]? = some o → o.marked = false)
    (l k : Loc) (o : Object) (ho : (h.release l).objects[k]? = some o) : o.marked = false := by
  cases hl : h.objects[l]? with
  | none =>
    rw [release, hl] at ho
    exact hu k o ho
  | some p =>
    rw [objects_release hl] at ho
    split at ho
    · obtain ⟨q, hq, rfl⟩ := Option.map_eq_some_iff.mp ho
      exact hu k q hq
    · exact hu k o ho

theorem sweepList_unmarked (kept ls : List Loc) (h : Heap)
    (hu : ∀ (l : Loc) (o : Object), h.objects[l]? = some o → o.marked = false) :
    sweepList kept ls h =
      { ls.foldl (fun h l => h.release l) h with live := kept.reverse } := by
  induction ls generalizing h with
  | nil => rfl
  | cons l ls ih =>
    have hm : ¬ h.isMarked l = true := by
      unfold isMarked
      cases ho : h.objects[l]? with
      | none => simp
      | some o => simp [hu l o ho]
    rw [sweepList, if_neg hm]
    exact ih _ (isMarked_release hu l)

theorem Consistent.objects_dispose (hc : h.Consistent) (hcl : h.closed = false) (l : Loc) :
    h.dispose.objects[l]? =
      (h.objects[l]?).map fun o => if l ∈ h.live then o.sweep else o := by
  have hs := sweepList_swept [] h.live h hc.nodup fun l hl => by
    obtain ⟨o, ho, -⟩ := (hc.live l).mp hl
    exact ⟨o, ho⟩
  rw [sweepList_unmarked _ _ _ hc.unmarked] at hs
  rw [← hs.objects, dispose, if_neg (by simp [hcl])]

theorem Sound.dispose (hs : h.Sound) : h.dispose.Sound := by
  by_cases hcl : h.closed = true
  · rw [Heap.dispose, if_pos hcl]
    exact hs
  have hc := hs.consistent
  have hdead : ∀ (l : Loc) (o : Object), h.dispose.objects[l]? = some o →
      o.freed = true ∧ o.marked = false := by
    intro l o ho
    rw [hc.objects_dispose (by simpa using hcl)] at ho
    obtain ⟨p, hp, rfl⟩ := Option.map_eq_some_iff.mp ho
    have hm := hc.unmarked l p hp
    split
    · simp [Object.sweep, hm, Object.release]
    · rename_i hl
      refine ⟨?_, hm⟩
      cases hf : p.freed with
      | true => rfl
      | false => exact absurd ((hc.live l).mpr ⟨p, hp, hf⟩) hl
  have hfields : h.dispose.live = [] ∧ h.dispose.slots = #[none] ∧ h.dispose.free = [] ∧
      h.dispose.strings = .empty := by
    rw [Heap.dispose, if_neg hcl]
    exact ⟨rfl, rfl, rfl, rfl⟩
  have hframe : h.SameFrame { h.live.foldl (fun h l => h.release l) h with live := [] } := by
    have hsw := sweepList_swept [] h.live h hc.nodup fun l hl => by
      obtain ⟨o, ho, -⟩ := (hc.live l).mp hl
      exact ⟨o, ho⟩
    rw [sweepList_unmarked _ _ _ hc.unmarked] at hsw
    exact hsw.frame
  have hgray : h.dispose.gray = [] ∧ h.dispose.collecting = false := by
    rw [Heap.dispose, if_neg hcl]
    exact ⟨hframe.gray.trans hc.gray, hframe.collecting.trans hc.idle⟩
  obtain ⟨hlive, hslots, hfree, hstrings⟩ := hfields
  have halive : ∀ l, ¬ h.dispose.Alive l := by
    rintro l ⟨o, ho, hf⟩
    rw [(hdead l o ho).1] at hf
    cases hf
  exact
    { consistent :=
        { unmarked := fun l o ho => (hdead l o ho).2
          gray := hgray.1
          idle := hgray.2
          nodup := by rw [hlive]; exact List.nodup_nil
          live := fun l => by
            rw [hlive]
            exact ⟨by rintro ⟨⟩, fun ha => absurd ha (halive l)⟩
          named := fun l o ho hf => absurd ⟨o, ho, hf⟩ (halive l)
          owner := fun i l hi => by
            rw [hslots] at hi
            cases i <;> simp at hi
          zero := by rw [hslots]; rfl
          size := by rw [hslots]; decide
          spare := by rw [hfree]; simp
          spare_nodup := by rw [hfree]; exact List.nodup_nil
          strings := by rw [hstrings]; exact Table.sound_empty
          interned := fun k v hb => by
            rw [hstrings] at hb
            exact absurd hb (Table.not_binds_empty k v) }
      strings :=
        { hashed := fun l _ _ hl => absurd hl.alive (halive l)
          unique := fun l _ _ _ _ hl => absurd hl.alive (halive l)
          bound := fun l _ _ hl => absurd hl.alive (halive l) } }

end Heap

namespace HeapM

open Heap

inductive Operation : {α : Type} → HeapM α → Prop where
  | intern (chars : Bytes) : Operation (intern chars)
  | newFunction : Operation newFunction
  | newNative (n : Native) : Operation (newNative n)
  | newClosure (function : Loc) : Operation (newClosure function)
  | newUpvalue (slot : Int) : Operation (newUpvalue slot)
  | newClass (name : Symbol) : Operation (newClass name)
  | newInstance (class_ : Loc) : Operation (newInstance class_)
  | newBoundMethod (receiver : Value) (method : Loc) : Operation (newBoundMethod receiver method)
  | writeByte (l : Loc) (b : UInt8) (line : Int) : Operation (writeByte l b line)
  | patchByte (l : Loc) (offset : Nat) (b : UInt8) : Operation (patchByte l offset b)
  | addConstant (l : Loc) (v : Value) : Operation (addConstant l v)
  | setEntry (l : Loc) (key : Symbol) (v : Value) : Operation (setEntry l key v)
  | inheritEntries (source target : Loc) : Operation (inheritEntries source target)
  | assign (l : Loc) {f : Body → Body} (hf : KeepsStrings f) :
      Operation (modify (·.updateBody l f) : HeapM Unit)
  | account (delta : Int) : Operation (account delta)
  | hold (v : Value) : Operation (hold v)
  | unhold (depth : Nat) : Operation (unhold depth)
  | addRoots (k : RootMarker) : Operation (addRoots k)
  | removeRoots (k : RootMarker) : Operation (removeRoots k)
  | collect : Operation collect

theorem Operation.keeps {α : Type} {act : HeapM α} (ho : Operation act) : Keeps act := by
  cases ho with
  | intern chars => exact keeps_intern chars
  | newFunction => exact keeps_allocate _ (by simp [Body.kind]) _
  | newNative n => exact keeps_allocate _ (by simp [Body.kind]) _
  | newClosure function => exact keeps_newClosure function
  | newUpvalue slot => exact keeps_allocate _ (by simp [Body.kind]) _
  | newClass name => exact keeps_allocate _ (by simp [Body.kind]) _
  | newInstance class_ => exact keeps_allocate _ (by simp [Body.kind]) _
  | newBoundMethod receiver method => exact keeps_allocate _ (by simp [Body.kind]) _
  | writeByte l b line => exact keeps_writeByte l b line
  | patchByte l offset b => exact keeps_patchByte l offset b
  | addConstant l v => exact keeps_addConstant l v
  | setEntry l key v => exact keeps_setEntry l key v
  | inheritEntries source target => exact keeps_inheritEntries source target
  | assign l hf => exact keeps_updateBody l hf
  | account delta => exact keeps_account delta
  | hold v => exact keeps_hold v
  | unhold depth => exact keeps_unhold depth
  | addRoots k => exact keeps_addRoots k
  | removeRoots k => exact keeps_removeRoots k
  | collect => exact keeps_collect

end HeapM

namespace Heap

open HeapM

variable {h h' : Heap}

/-- The heaps that operations lead to, with any roots around them at each one. A handle has 32 bits. -/
inductive Reachable : Heap → Prop where
  | new (options : GcOptions) : Reachable (new options)
  | step {α : Type} {act : HeapM α} {h h' : Heap} {a : α} (hr : Reachable h) (ho : Operation act)
      (roots : Roots) (hrun : act roots h = .ok a h') (hroom : h'.slots.size ≤ 2 ^ 32) : Reachable h'
  | dispose {h : Heap} (hr : Reachable h) : Reachable h.dispose

theorem Reachable.sound {h : Heap} (hr : Reachable h) : h.Sound := by
  induction hr with
  | new options => exact sound_new options
  | step _ ho roots hrun hroom ih =>
    exact ((ho.keeps.sound roots _ ih).of_ok hrun (Nat.not_lt.mpr hroom)).1
  | dispose _ ih => exact ih.dispose

/-- Root markers that ask for a collection before each link they mark. -/
def markNested (links : List Link) : HeapM Unit :=
  links.forM fun link => do
    let _ ← collect
    mark link

theorem markNested_eq (r : Roots) {links : List Link} (hv : ∀ link ∈ links, h.busy.Valid link)
    (marks : Loc → Bool) (gray : List Loc) (events : List Event) :
    markNested links r (h.busy.withMarks marks gray events) =
      links.forM mark r (h.busy.withMarks marks gray events) := by
  induction links generalizing marks gray events with
  | nil => rfl
  | cons link links ih =>
    obtain ⟨marks', gray', events', he, -⟩ := mark_ok r (hv link (by simp)) marks gray events
    have hstep : (do let _ ← collect; mark link : HeapM Unit) r (h.busy.withMarks marks gray events) =
        mark link r (h.busy.withMarks marks gray events) := by
      rw [run_bind, collect_busy r _ rfl]
    rw [markNested, run_forM_cons, run_forM_cons, hstep, he]
    exact ih (fun k hk => hv k (List.mem_cons_of_mem _ hk)) marks' gray' events'

/-- What a collection leaves: the objects that edges lead to from the roots, as they were, and nothing of the others. -/
structure Exact (h : Heap) (roots : Roots) (h' : Heap) : Prop where
  stays : ∀ l, h.Alive l → (h'.Alive l ↔ h.Reaches roots l)
  kept : ∀ l o, h.Reaches roots l → h.objects[l]? = some o →
    h'.objects[l]? = some o ∧ h'.find? o.ref = some l
  nothing_new : ∀ l, ¬ h.Alive l → h'.objects[l]? = h.objects[l]?
  handles : ∀ ref l, h'.find? ref = some l ↔ h.find? ref = some l ∧ h.Reaches roots l
  live : ∀ l, l ∈ h'.live ↔ h'.Alive l
  strings : ∀ l chars hash, (∃ v, h'.strings.Binds ⟨l, chars, hash⟩ v) ↔ h'.IsString l chars hash
  unmarked : ∀ (l : Loc) (o : Object), h'.objects[l]? = some o → o.marked = false
  gray : h'.gray = []

theorem Collection.exact {roots : Roots} (hs : h.Sound) (hi : h.Intact (h.origins roots))
    (hcol : h.Collection (h.origins roots) h') : h.Exact roots h' where
  stays l _ := (hcol.alive_iff hi l).trans reaches_iff.symm
  kept l o hr ho := by
    have hr := reaches_iff.mp hr
    have ho' := (hcol.kept l (.inl hr)).trans ho
    obtain ⟨p, hp, hf⟩ := hi.alive hr
    rw [ho] at hp
    cases hp
    exact ⟨ho', hcol.consistent.find?_ref ho' hf⟩
  nothing_new l hl := hcol.kept l (.inr hl)
  handles ref l := by
    rw [find?_eq_some, find?_eq_some, hcol.names, and_assoc, reaches_iff]
  live := hcol.consistent.live
  strings l chars hash := by
    have hsound := (hcol.charged hi).sound hs
    exact ⟨fun ⟨v, hv⟩ => hsound.consistent.interned _ v hv, hsound.strings.bound l chars hash⟩
  unmarked := hcol.consistent.unmarked
  gray := hcol.consistent.gray

/-- Every collection that meets no freed object frees exactly what no edges lead to from the holds and the registered
markers, and asking for another one meanwhile changes nothing. -/
theorem Reachable.collect_exact (hr : Reachable h) (roots : Roots) (hi : h.Unbroken roots) :
    (∃ c h', collect roots h = .ok c h' ∧ h.Exact roots h') ∧
      markNested (h.origins roots) roots h.busy = markRoots roots h.busy ∧
      ∀ h₁, h₁.collecting = true → collect roots h₁ = .ok .nothing h₁ := by
  have hs := hr.sound
  have hi := unbroken_iff.mp hi
  obtain ⟨c, h', hrun, hcol⟩ := collect_ok roots hs.consistent hi
  refine ⟨⟨c, h', hrun, hcol.exact hs hi⟩, ?_, collect_busy roots⟩
  have hbusy := withMarks_unmarked hs.consistent h.busy.events
  rw [markRoots_eq]
  have := markNested_eq roots (intact_busy.mpr hi).origin (fun _ => false) [] h.busy.events
  rwa [hbusy] at this

def closeWith (v : Value) : Body → Body
  | .upvalue _ => .upvalue (.closed v)
  | b => b

theorem keepsStrings_closeWith (v : Value) : KeepsStrings (closeWith v) := by
  refine ⟨fun _ _ => rfl, fun b hb => ?_⟩
  cases b <;> simp_all [Body.kind, closeWith]

def captureAt (l : Loc) : Body → Body
  | .closure c => .closure ⟨c.function, #[some l]⟩
  | b => b

theorem keepsStrings_captureAt (l : Loc) : KeepsStrings (captureAt l) := by
  refine ⟨fun _ _ => rfl, fun b hb => ?_⟩
  cases b <;> simp_all [Body.kind, captureAt]

def nameWith (s : Symbol) : Body → Body
  | .function f => .function { f with name := some s }
  | b => b

theorem keepsStrings_nameWith (s : Symbol) : KeepsStrings (nameWith s) := by
  refine ⟨fun _ _ => rfl, fun b hb => ?_⟩
  cases b <;> simp_all [Body.kind, nameWith]

structure Move where
  {α : Type}
  act : HeapM α
  operation : Operation act

def after : List Move → Heap → Option Heap
  | [], h => some h
  | m :: ms, h => match m.act (fun _ => []) h with
    | .ok _ h' => if h'.slots.size ≤ 2 ^ 32 then after ms h' else none
    | .error _ _ => none

theorem Reachable.after {ms : List Move} (hr : Reachable h) (ha : Heap.after ms h = some h') : Reachable h' := by
  induction ms generalizing h with
  | nil =>
    cases ha
    exact hr
  | cons m ms ih =>
    unfold Heap.after at ha
    cases hrun : m.act (fun _ => []) h with
    | error e h₁ =>
      rw [hrun] at ha
      cases ha
    | ok a h₁ =>
      simp only [hrun] at ha
      split at ha
      · rename_i hroom
        exact ih (hr.step m.operation _ hrun hroom) ha
      · cases ha

def web : List Move :=
  let name : Symbol := ⟨0, "a", Bytes.hash "a"⟩
  [⟨_, .intern "a"⟩, ⟨_, .newFunction⟩, ⟨_, .assign 1 (keepsStrings_nameWith name)⟩,
    ⟨_, .addConstant 1 (.object 1)⟩, ⟨_, .newUpvalue 0⟩, ⟨_, .newClosure 1⟩,
    ⟨_, .assign 3 (keepsStrings_captureAt 2)⟩, ⟨_, .newClass name⟩, ⟨_, .setEntry 4 name (.object 4)⟩,
    ⟨_, .newInstance 4⟩, ⟨_, .newBoundMethod (.object 6) 3⟩, ⟨_, .setEntry 5 name (.object 7)⟩,
    ⟨_, .assign 2 (keepsStrings_closeWith (.object 6))⟩, ⟨_, .newNative ⟨"b", none, .gc⟩⟩,
    ⟨_, .addRoots (.host 0)⟩]

def webRoots : Roots
  | .host 0 => [.object 2]
  | _ => []

def leadsIn (h : Heap) (ls : List Loc) : Link → Bool
  | .value v => !v.isObject || match h.find? v.handle with
    | some l => ls.contains l
    | none => false
  | .object l => ls.contains l
  | .fields _ => false

def encloses (h : Heap) (links : List Link) (ls : List Loc) : Bool :=
  links.all (h.leadsIn ls) && ls.all fun l => match h.objects[l]? with
    | some o => !o.freed && o.body.links.all (h.leadsIn ls)
    | none => false

def named (h : Heap) (links : List Link) : List Loc :=
  links.filterMap fun
    | .value v => if v.isObject then h.find? v.handle else none
    | .object k => some k
    | .fields _ => none

theorem valid_of_leadsIn {ls : List Loc} {link : Link} (ha : ∀ l ∈ ls, h.Alive l) (hl : h.leadsIn ls link = true) :
    h.Valid link ∧ ∀ l, h.Leads link l → l ∈ ls := by
  cases link with
  | value v =>
    cases hv : v.isObject with
    | false =>
      refine ⟨.plain hv, fun l hlead => ?_⟩
      cases hlead with
      | value hv' _ =>
        rw [hv] at hv'
        cases hv'
    | true =>
      cases hf : h.find? v.handle with
      | none => simp [leadsIn, hv, hf] at hl
      | some k =>
        have hk : k ∈ ls := by simpa [leadsIn, hv, hf] using hl
        refine ⟨.value hv hf (ha k hk), fun l hlead => ?_⟩
        cases hlead with
        | value _ hf' =>
          rw [hf] at hf'
          exact Option.some.inj hf' ▸ hk
  | object k =>
    have hk : k ∈ ls := by simpa [leadsIn] using hl
    refine ⟨.object (ha k hk), fun l hlead => ?_⟩
    cases hlead
    exact hk
  | fields k => cases hl

theorem intact_of_encloses {links : List Link} {ls : List Loc} (he : h.encloses links ls = true) :
    h.Intact links ∧ ∀ l, h.Reach links l → l ∈ ls := by
  simp only [encloses, Bool.and_eq_true, List.all_eq_true] at he
  obtain ⟨hroots, hat⟩ := he
  have hlinks (l : Loc) (hl : l ∈ ls) : h.Alive l ∧ ∀ link ∈ h.linksAt l, h.leadsIn ls link = true := by
    have ho := hat l hl
    cases hobj : h.objects[l]? with
    | none => simp [hobj] at ho
    | some o =>
      simp only [hobj, Bool.and_eq_true, Bool.not_eq_true', List.all_eq_true] at ho
      refine ⟨⟨o, hobj, ho.1⟩, fun link hm => ho.2 link ?_⟩
      simpa only [linksAt, hobj] using hm
  have ha (l : Loc) (hl : l ∈ ls) : h.Alive l := (hlinks l hl).1
  have hin : ∀ l, h.Reach links l → l ∈ ls := by
    intro l hr
    induction hr with
    | root hm hl => exact (valid_of_leadsIn ha (hroots _ hm)).2 _ hl
    | link _ hm hl ih => exact (valid_of_leadsIn ha ((hlinks _ ih).2 _ hm)).2 _ hl
  exact ⟨⟨fun link hm => (valid_of_leadsIn ha (hroots link hm)).1,
    fun l hl link hm => (valid_of_leadsIn ha ((hlinks l (hin l hl)).2 link hm)).1⟩, hin⟩

theorem leads_of_named {links : List Link} {l : Loc} (hl : l ∈ h.named links) :
    ∃ link ∈ links, h.Leads link l := by
  obtain ⟨link, hm, hlead⟩ := List.mem_filterMap.mp hl
  refine ⟨link, hm, ?_⟩
  cases link with
  | value v =>
    dsimp only at hlead
    split at hlead
    · exact .value ‹_› hlead
    · cases hlead
  | object k =>
    cases hlead
    exact .object l
  | fields k => cases hlead

def spread (h : Heap) (links : List Link) : Nat → List Loc
  | 0 => h.named links
  | n + 1 => h.spread links n ++ h.named ((h.spread links n).flatMap h.linksAt)

theorem reach_of_spread {links : List Link} (n : Nat) {l : Loc} (hl : l ∈ h.spread links n) : h.Reach links l := by
  induction n generalizing l with
  | zero =>
    obtain ⟨link, hm, hlead⟩ := leads_of_named hl
    exact .root hm hlead
  | succ n ih =>
    rcases List.mem_append.mp hl with hl | hl
    · exact ih hl
    · obtain ⟨link, hm, hlead⟩ := leads_of_named hl
      obtain ⟨k, hk, hm⟩ := List.mem_flatMap.mp hm
      exact .link (ih hk) hm hlead

def keepsFirst (h : Heap) (roots : Roots) (steps count : Nat) : Bool :=
  h.encloses (h.origins roots) (List.range count) && (List.range count).all (h.spread (h.origins roots) steps).contains

theorem collect_exact_web : ∃ h c h', Heap.after web (new {}) = some h ∧ collect webRoots h = .ok c h' ∧
    (∀ l < 7, h'.Alive l) ∧ h.objects.size = 8 ∧ ¬ h'.Alive 7 := by
  have hkeeps : (match Heap.after web (new {}) with
      | some h => h.objects.size == 8 && h.keepsFirst webRoots 4 7
      | none => false) = true := by
    decide +kernel
  cases hafter : Heap.after web (new {}) with
  | none =>
    rw [hafter] at hkeeps
    cases hkeeps
  | some h =>
    simp only [hafter, keepsFirst, Bool.and_eq_true, beq_iff_eq, List.all_eq_true, List.contains_iff_mem] at hkeeps
    obtain ⟨hsize, hencloses, hspread⟩ := hkeeps
    obtain ⟨hi, hin⟩ := intact_of_encloses hencloses
    have hr : Reachable h := (Reachable.new {}).after hafter
    obtain ⟨⟨c, h', hrun, hex⟩, -⟩ := hr.collect_exact webRoots (unbroken_iff.mpr hi)
    refine ⟨h, c, h', rfl, hrun, fun l hl => ?_, hsize, fun ha => ?_⟩
    · have hreach := reach_of_spread 4 (hspread l (List.mem_range.mpr hl))
      exact (hex.stays l (hi.alive hreach)).mpr (reaches_iff.mpr hreach)
    · have hold : h.Alive 7 := by
        by_contra hn
        obtain ⟨o, ho, hf⟩ := ha
        rw [hex.nothing_new 7 hn] at ho
        exact hn ⟨o, ho, hf⟩
      have hmem := hin 7 (reaches_iff.mp ((hex.stays 7 hold).mp ha))
      exact absurd (List.mem_range.mp hmem) (by decide)

end Heap

end Lox

namespace Lox

namespace Heap

open HeapM HeapView

variable {h h' h₁ h₂ : Heap}

theorem Sound.alive_dispose (hs : h.Sound) (hcl : h.closed = false) (l : Loc) :
    ¬ h.dispose.Alive l := by
  intro ha
  have hlive := (hs.dispose.consistent.live l).mpr ha
  rw [Heap.dispose, if_neg (by simp [hcl])] at hlive
  exact List.not_mem_nil hlive

theorem Sound.steady_dispose (hs : h.Sound) : h.Steady h.dispose := by
  cases hcl : h.closed with
  | true =>
    rw [Heap.dispose, if_pos hcl]
    exact .of_objects rfl
  | false =>
    have hdead := hs.alive_dispose hcl
    constructor
    · apply Nat.le_of_not_lt
      intro hlt
      have ho := hs.consistent.objects_dispose hcl h.dispose.objects.size
      rw [Array.getElem?_eq_none (Nat.le_refl _), Array.getElem?_eq_getElem hlt] at ho
      cases ho
    · intro l _ ha
      exact absurd ha (hdead l)
    · intro l chars hash _ ha
      exact absurd ha (hdead l)

/-- A heap that operations lead to from another one. -/
inductive Later (h : Heap) : Heap → Prop where
  | refl : Later h h
  | step {α : Type} {act : HeapM α} {h₁ h₂ : Heap} {a : α} (hl : Later h h₁) (ho : Operation act)
      (roots : Roots) (hrun : act roots h₁ = .ok a h₂) (hroom : h₂.slots.size ≤ 2 ^ 32) : Later h h₂
  | dispose {h₁ : Heap} (hl : Later h h₁) : Later h h₁.dispose

theorem Later.reachable (hl : h.Later h') (hr : Reachable h) : Reachable h' := by
  induction hl with
  | refl => exact hr
  | step _ ho roots hrun hroom ih => exact ih.step ho roots hrun hroom
  | dispose _ ih => exact ih.dispose

theorem Later.steady (hl : h.Later h') (hr : Reachable h) : h.Steady h' := by
  induction hl with
  | refl => exact .of_objects rfl
  | step hl ho roots hrun hroom ih =>
    have hs := (hl.reachable hr).sound
    exact ih.trans ((ho.keeps.sound roots _ hs).of_ok hrun (Nat.not_lt.mpr hroom)).2
  | dispose hl ih => exact ih.trans (hl.reachable hr).sound.steady_dispose

structure Canonical (h : Heap) : Prop where
  keys : ∀ l chars hash, (∃ v, h.strings.Binds ⟨l, chars, hash⟩ v) ↔ h.IsString l chars hash
  distinct : ∀ k l chars hash hash', h.IsString k chars hash → h.IsString l chars hash' → k = l
  hashed : ∀ l chars hash, h.IsString l chars hash → Bytes.Fnv1a chars hash.toNat
  equal : ∀ k l chars chars' hash hash', h.IsString k chars hash → h.IsString l chars' hash' →
    ∃ v w, valueOf k h = .ok v ∧ valueOf l h = .ok w ∧ (v.equal w = true ↔ chars = chars')

theorem Consistent.ref_inj (hc : h.Consistent) {k l : Loc} {o p : Object}
    (ho : h.objects[k]? = some o) (hp : h.objects[l]? = some p) (hof : o.freed = false)
    (hpf : p.freed = false) (href : o.ref = p.ref) : k = l := by
  have hk := hc.find?_ref ho hof
  rw [href, hc.find?_ref hp hpf] at hk
  exact (Option.some.inj hk).symm

theorem Sound.canonical (hs : h.Sound) : h.Canonical where
  keys l chars hash := by
    constructor
    · rintro ⟨v, hv⟩
      exact hs.consistent.interned _ v hv
    · exact hs.strings.bound l chars hash
  distinct := hs.strings.unique
  hashed l chars hash hl := hs.strings.hashed l chars hash hl ▸ Bytes.fnv1a_hash chars
  equal k l chars chars' hash hash' hk hl := by
    obtain ⟨o, ho, hof, hob⟩ := hk
    obtain ⟨p, hp, hpf, hpb⟩ := hl
    refine ⟨_, _, valueOf_eq ho, valueOf_eq hp, ?_⟩
    have heq : (Value.object o.ref).equal (.object p.ref) = true ↔ o.ref = p.ref := by
      simp only [Value.equal, Value.isNumber_object, Bool.false_and, Bool.false_eq_true, ↓reduceIte,
        beq_iff_eq]
      exact ⟨Value.object_inj, congrArg Value.object⟩
    rw [heq]
    constructor
    · intro href
      obtain rfl := hs.consistent.ref_inj ho hp hof hpf href
      rw [ho] at hp
      cases hp
      rw [hob] at hpb
      cases hpb
      rfl
    · rintro rfl
      obtain rfl := hs.strings.unique k l chars hash hash' ⟨o, ho, hof, hob⟩ ⟨p, hp, hpf, hpb⟩
      rw [ho] at hp
      cases hp
      rfl

theorem Sound.interns (hs : h.Sound) {roots : Roots} {chars : Bytes} {s : Symbol}
    (hrun : intern chars roots h = .ok s h') (hroom : h'.slots.size ≤ 2 ^ 32) :
    Interns True roots h chars s h' :=
  (delivers_intern hs (fun _ => trivial) chars).of_ok hrun (Nat.not_lt.mpr hroom)

theorem Reachable.intern_twice (hr : Reachable h) {roots roots' : Roots} {a b : Bytes}
    {s s' : Symbol} (ha : intern a roots h = .ok s h₁) (hroom : h₁.slots.size ≤ 2 ^ 32)
    (hl : h₁.Later h₂) (halive : h₂.Alive s.loc) (hb : intern b roots' h₂ = .ok s' h')
    (hroom' : h'.slots.size ≤ 2 ^ 32) : s.loc = s'.loc ↔ a = b := by
  have hr₁ : Reachable h₁ := hr.step (.intern a) roots ha hroom
  have hr₂ := hl.reachable hr₁
  obtain ⟨hsa, hstr, -⟩ := hr.sound.interns ha hroom
  have hb' := hr₂.sound.interns hb hroom'
  have hstr₂ := (hl.steady hr₁).isString _ _ _ hstr halive
  constructor
  · intro hloc
    -- the second string is alive, so the first one is alive with it and still has its text
    have hstr' := hb'.steady.isString _ _ _ hstr₂ (by rw [hloc]; exact hb'.isString.alive)
    obtain ⟨o, ho, -, hob⟩ := hstr'
    obtain ⟨p, hp, -, hpb⟩ := hb'.isString
    rw [hloc, hp] at ho
    cases ho
    rw [hpb] at hob
    injection hob with hchars
    rw [← hsa, ← hb'.chars, hchars]
  · rintro rfl
    have hfound := intern_of_isString (r := roots') hr₂.sound hstr₂
    rw [hsa, hb] at hfound
    cases hfound
    rfl

/-- Requests for texts give one live string for each text, at every heap that operations lead to. -/
theorem Reachable.interning_exact (hr : Reachable h) : h.Canonical ∧
    (∀ roots chars, h.closed = false → h.Intact (h.origins roots) →
      (∀ link ∈ h.origins roots, IsDirect link) → ∀ e h', intern chars roots h = .error e h' →
        2 ^ 32 < h'.slots.size) ∧
    (∀ roots chars s h', intern chars roots h = .ok s h' → h'.slots.size ≤ 2 ^ 32 →
      s.chars = chars ∧ h'.IsString s.loc chars s.hash) ∧
    ∀ roots roots' a b s s' h₁ h₂ h₃, intern a roots h = .ok s h₁ → h₁.slots.size ≤ 2 ^ 32 →
      h₁.Later h₂ → h₂.Alive s.loc → intern b roots' h₂ = .ok s' h₃ → h₃.slots.size ≤ 2 ^ 32 →
        (s.loc = s'.loc ↔ a = b) := by
  have hs := hr.sound
  refine ⟨hs.canonical, ?_, ?_, ?_⟩
  · intro roots chars hcl hi hd e h' hrun
    have hclear : ¬ h.Trouble roots := by
      rintro (ht | ht | ⟨link, hm, ht⟩)
      · rw [hcl] at ht
        cases ht
      · exact ht hi
      · exact ht (hd link hm)
    have hdel : Delivers False roots h (intern chars) (Interns False roots h chars) :=
      delivers_intern hs hclear chars
    unfold Delivers at hdel
    rw [hrun] at hdel
    exact hdel.resolve_right id
  · intro roots chars s h' hrun hroom
    have hint := hs.interns hrun hroom
    have hstr := hint.isString
    rw [hint.chars] at hstr
    exact ⟨hint.chars, hstr⟩
  · intro roots roots' a b s s' h₁ h₂ h₃ ha hroom hl halive hb hroom'
    exact hr.intern_twice ha hroom hl halive hb hroom'

theorem interning_exact_new : ∃ s t u h₁ h₂ h₃,
    intern "a" (fun _ => []) (new {}) = .ok s h₁ ∧ intern "b" (fun _ => []) h₁ = .ok t h₂ ∧
      intern "a" (fun _ => []) h₂ = .ok u h₃ ∧ s.loc ≠ t.loc ∧ s.loc = u.loc ∧ h₃.Canonical ∧
      Bytes.Fnv1a "a" u.hash.toNat ∧ u.hash = 0xe40c292c := by
  have h₀ : Reachable (new {}) := .new {}
  have h₁ := h₀.step (.intern "a") (fun _ => []) (a := ⟨0, "a", Bytes.hash "a"⟩) rfl (by decide)
  have h₂ := h₁.step (.intern "b") (fun _ => []) (a := ⟨1, "b", Bytes.hash "b"⟩) rfl (by decide)
  have htwice := h₀.interning_exact.2.2.2 (fun _ => []) (fun _ => []) "a"
  have hcanonical := (h₂.step (.intern "a") (fun _ => []) (a := ⟨0, "a", Bytes.hash "a"⟩) rfl
    (by decide)).interning_exact.1
  refine ⟨_, _, _, _, _, _, rfl, rfl, rfl, ?_, ?_, hcanonical, hcanonical.hashed 0 _ _ ⟨_, rfl, rfl, rfl⟩, rfl⟩
  · refine fun he => absurd ((htwice "b" _ _ _ _ _ rfl (by decide) .refl ⟨_, rfl, rfl⟩ rfl
      (by decide)).mp he) (by decide)
  · refine (htwice "a" _ _ _ _ _ rfl (by decide) (.step .refl (.intern "b") (fun _ => []) rfl
      (by decide)) ⟨_, rfl, rfl⟩ rfl (by decide)).mpr rfl

end Heap

end Lox
