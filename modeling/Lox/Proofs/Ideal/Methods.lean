import Lox.Proofs.Ideal.Classes
import Lox.Proofs.Ideal.Meaning
import Lox.Proofs.Ideal.Mirror
import Lox.Proofs.Machine.Lookups

namespace Lox

namespace Heap

variable {h : Heap} {w : World} {objects : List (Obj Routine)} {upvalues : List Captured}

def Known (h : Heap) (w : World) (l : Loc) : Prop :=
  (∃ t, w l = some t) ∨ ∃ chars hash, h.IsString l chars hash

def LeadsToKnown (h : Heap) (w : World) (link : Link) : Prop :=
  ∀ l, h.Leads link l → h.Known w l

theorem Known.link {l : Loc} (hl : h.Known w l) : h.LeadsToKnown w (.object l) := by
  intro k hk
  cases hk
  exact hl

theorem known_string {l : Loc} {chars : Bytes} {hash : UInt32} (hl : h.IsString l chars hash) : h.Known w l :=
  .inr ⟨chars, hash, hl⟩

theorem leadsToKnown_plain {v : Value} (hv : v.isObject = false) : h.LeadsToKnown w (.value v) := by
  intro l hl
  cases hl with
  | value ho => rw [hv] at ho; cases ho

theorem Names.leadsToKnown {v : Value} {l : Loc} (hn : h.Names v l) (hl : h.Known w l) :
    h.LeadsToKnown w (.value v) := by
  intro k hk
  cases hk with
  | value ho hf =>
    rw [hn.find?] at hf
    cases hf
    exact hl

theorem Shows.leadsToKnown {v : Value} {x : Val} (hx : h.Shows w v x) : h.LeadsToKnown w (.value v) := by
  cases hv : v.isObject with
  | false => exact leadsToKnown_plain hv
  | true =>
    obtain ⟨l, hn, ⟨chars, hash, -, hs⟩ | ⟨a, -, hw⟩⟩ := hx.names hv
    · exact hn.leadsToKnown (known_string hs)
    · exact hn.leadsToKnown (.inl ⟨_, hw⟩)

theorem ShowsConstant.leadsToKnown {v : Value} {k : Literal} (hk : h.ShowsConstant w v k) :
    h.LeadsToKnown w (.value v) := by
  cases k with
  | number u => exact leadsToKnown_plain hk.2.isObject
  | string chars =>
    obtain ⟨l, hash, hn, hs⟩ := hk
    exact hn.leadsToKnown (known_string hs)
  | function p =>
    obtain ⟨l, hn, hw⟩ := hk
    exact hn.leadsToKnown (.inl ⟨_, hw⟩)

theorem ShowsTable.leadsToKnown {t : Table} {d : Dict Val} (ht : h.ShowsTable w t d) :
    ∀ link ∈ t.links, h.LeadsToKnown w link := by
  intro link hl
  rcases Table.cases_of_mem_links ht.blank hl with ⟨k, v, hb, rfl | rfl⟩ | ⟨v, rfl, hv⟩
  · exact (known_string (ht.keys k v hb)).link
  · obtain ⟨x, -, hx⟩ := ht.values k v hb
    exact hx.leadsToKnown
  · exact leadsToKnown_plain (by rcases hv with rfl | rfl <;> rfl)

theorem Depicts.leadsToKnown {body : Body} {t : Thing} (hd : h.Depicts w objects upvalues body t) :
    ∀ link ∈ body.links, h.LeadsToKnown w link := by
  intro link hl
  cases hd with
  | function hf =>
    rcases List.mem_append.mp hl with hl | hl
    · obtain ⟨s, hs, rfl⟩ := List.mem_map.mp hl
      exact (known_string (hf.named s (Option.mem_toList.mp hs))).link
    · obtain ⟨v, hv, rfl⟩ := List.mem_map.mp hl
      obtain ⟨k, -, hk⟩ := forall₂_mem hf.constants hv
      exact hk.leadsToKnown
  | closure _ hf hc =>
    rcases List.mem_cons.mp hl with rfl | hl
    · exact Known.link (.inl ⟨_, hf⟩)
    · obtain ⟨u, hu, hlink⟩ := List.mem_filterMap.mp hl
      obtain ⟨l, rfl, rfl⟩ := Option.map_eq_some_iff.mp hlink
      obtain ⟨c, -, hcapture⟩ := forall₂_mem hc hu
      cases c with
      | none => exact hcapture.elim
      | some c => exact Known.link (.inl ⟨_, hcapture⟩)
  | native => cases hl
  | class_ _ hname ht =>
    rcases List.mem_cons.mp hl with rfl | hl
    · exact (known_string hname).link
    · exact ht.leadsToKnown link hl
  | instance_ _ hc ht =>
    rcases List.mem_cons.mp hl with rfl | hl
    · exact Known.link (.inl ⟨_, hc⟩)
    · exact ht.leadsToKnown link hl
  | bound _ hr hm =>
    simp only [Body.links, List.mem_cons, List.not_mem_nil, or_false] at hl
    rcases hl with rfl | rfl
    · exact hr.leadsToKnown
    · exact Known.link (.inl ⟨_, hm⟩)
  | slot => cases hl
  | closed _ hv =>
    obtain rfl := List.mem_singleton.mp hl
    exact hv.leadsToKnown

end Heap

open Heap MachineM

namespace Mirrors

variable {w : World} {m : Machine} {i : Ideal} {l : Loc}

theorem known_of_reach (hm : Mirrors w m i) (hl : m.heap.Reach (m.heap.origins (roots m)) l) : m.heap.Known w l := by
  induction hl with
  | @root link l hlink hleads =>
    rcases hm.root_cases hlink with ⟨v, hv, rfl⟩ | ⟨f, hf, rfl⟩ | ⟨u, hu, rfl⟩ | hlink | ⟨s, hs, rfl⟩
    · obtain ⟨x, -, hx⟩ := forall₂_mem hm.stack hv
      exact hx.leadsToKnown l hleads
    · obtain ⟨a, -, ha⟩ := forall₂_mem hm.frames hf
      exact Known.link (.inl ⟨_, ha.closure⟩) l hleads
    · obtain ⟨b, -, hb⟩ := forall₂_mem hm.opened hu
      exact Known.link (.inl ⟨_, hb.place⟩) l hleads
    · exact hm.globals.leadsToKnown link hlink l hleads
    · obtain ⟨s', hs', -, hstring⟩ := hm.initName
      rw [hs] at hs'
      cases hs'
      exact (known_string hstring).link l hleads
  | @link link k l hk hlink hleads ih =>
    have halive := (hm.pictures.intact hm.rooted).alive hk
    rcases ih with ⟨t, ht⟩ | ⟨chars, hash, o, ho, -, hbody⟩
    · obtain ⟨o, -, hlinks, hd⟩ := hm.pictures.body halive ht
      rw [hlinks] at hlink
      exact hd.leadsToKnown link hlink l hleads
    · rw [linksAt, ho] at hlink
      dsimp only at hlink
      rw [hbody] at hlink
      cases hlink

end Mirrors

open Heap HeapView MachineM HeapM

def World.Numbers (w : World) (l a : Nat) : Prop :=
  w l = some (.object a)

theorem HeapView.isString_of_asSymbol {h : Heap} {v : Value} {s : Symbol} (hc : h.Consistent)
    (hs : asSymbol v h = .ok s) : h.IsString s.loc s.chars s.hash := by
  unfold asSymbol at hs
  rw [view_bind] at hs
  cases hl : locOfValue v h with
  | error e =>
    rw [hl] at hs
    cases hs
  | ok l =>
    rw [hl] at hs
    obtain ⟨rfl, o, ho, hb⟩ := symbolAt_eq_ok.mp hs
    rw [locOfValue_eq] at hl
    split at hl
    · split at hl
      · cases hl
        rename_i hfind
        obtain ⟨o', ho', hfree, -⟩ := hc.ref_of_find? hfind
        rw [ho] at ho'
        cases ho'
        exact ⟨o, ho, hfree, hb⟩
      · cases hl
    · cases hl

namespace Mirrors

variable {w : World} {m : Machine} {i : Ideal} {t : Table} {s : Symbol} {v u : Value} {k l : Loc} {a : Nat} {c : Class}

theorem binding?_eq (hm : Mirrors w m i) (hs : m.heap.IsString s.loc s.chars s.hash) (t : Table) :
    m.binding? t s.chars = t.get? s := by
  have hfind : m.heap.strings.findText? s.chars s.chars.hash = some s :=
    (hm.pictures.sound.findText?_eq_some_iff s.chars).mpr ⟨hs, rfl⟩
  rw [Machine.binding?, hfind]
  rfl

theorem entry?_eq (hm : Mirrors w m i) (hs : m.heap.IsString s.loc s.chars s.hash) (hv : t.get? s = some v)
    (hk : locOfValue v m.heap = .ok k) : m.entry? t s.chars = some k := by
  rw [Machine.entry?, hm.binding?_eq hs, hv]
  simp only [Option.bind_eq_bind, Option.bind_some, hk]
  rfl

theorem method?_eq (hm : Mirrors w m i) (hs : m.heap.IsString s.loc s.chars s.hash) (hc : classAt l m.heap = .ok c)
    (hv : c.methods.get? s = some v) (hk : locOfValue v m.heap = .ok k) : m.method? l s.chars = some k := by
  unfold Machine.method?
  rw [hc]
  exact hm.entry?_eq hs hv hk

end Mirrors

section

variable {w : World} {m y : Machine} {i : Ideal} {v u : Value} {s : Symbol} {l : Loc} {n : Nat}

theorem Heap.Shows.object {h : Heap} {e : Val} (he : h.Shows w v e) (hl : locOfValue v h = .ok l) {o : Object}
    (ho : h.objects[l]? = some o) (hkind : o.kind ≠ .string) : ∃ a, e = .object a ∧ h.Names v l ∧ w.Numbers l a := by
  have hobject : v.isObject = true := by
    by_contra hplain
    rw [locOfValue_plain (Bool.eq_false_iff.mpr hplain)] at hl
    cases hl
  obtain ⟨l', hn, hwhat⟩ := he.names hobject
  obtain rfl := Except.ok.inj (hn.locOfValue.symm.trans hl)
  rcases hwhat with ⟨chars, hash, rfl, o', ho', -, hbody⟩ | ⟨a, rfl, ha⟩
  · rw [ho] at ho'
    cases ho'
    exact absurd (by rw [Object.kind, hbody]; rfl) hkind
  · exact ⟨a, rfl, hn, ha⟩

namespace Mirrors

theorem object_of_mem (hm : Mirrors w m i) (hv : v ∈ m.values) (hl : locOfValue v m.heap = .ok l) {o : Object}
    (ho : m.heap.objects[l]? = some o) (hkind : o.kind ≠ .string) : ∃ a, m.heap.Names v l ∧ w.Numbers l a := by
  obtain ⟨e, -, he⟩ := forall₂_mem hm.stack hv
  obtain ⟨a, -, hn, ha⟩ := he.object hl ho hkind
  exact ⟨a, hn, ha⟩

theorem read (hm : Mirrors w m i) {f : Frame} {rest : List Frame} (hf : m.calls.frames = f :: rest) (ip : Nat) :
    ∃ i', Mirrors w { m with calls := m.calls.jumpTo ip } i' ∧ (∃ frames, i' = { i with frames }) := by
  have hframes := hm.frames
  rw [hf] at hframes
  generalize hg : i.frames = frames at hframes
  cases hframes with
  | @cons _ a _ as _ _ => exact ⟨_, hm.jumpTo hg ip, _, rfl⟩

theorem write (hm : Mirrors w m i) {e : Val} (he : m.heap.Shows w v e)
    (h : writeSlot ((m.sp : Int) - n - 1) v m = .ok () y) : ∃ i' stack, Mirrors w y i' ∧ y = { m with stack } ∧
      v ∈ y.values := by
  obtain ⟨hlt, stack, rfl, hfilled, hvalues⟩ := writeSlot_eq_ok hm.filled h
  refine ⟨{ i with stack := i.stack.set (m.sp - 1 - n) e }, stack, { hm with filled := hfilled, stack := ?_ }, rfl, ?_⟩
  · rw [hvalues]
    exact forall₂_set hm.stack _ he
  · rw [hvalues]
    refine List.mem_set ?_ v
    rw [hm.filled.length]
    omega

theorem shows_field (hm : Mirrors w m i) (hv : v ∈ m.values) (hl : locOfValue v m.heap = .ok l) {j : Instance}
    (hj : instanceAt l m.heap = .ok j) (hs : m.heap.IsString s.loc s.chars s.hash) (hu : j.fields.get? s = some u) :
    ∃ e, m.heap.Shows w u e := by
  obtain ⟨o, ho, hbody⟩ := instanceAt_eq_ok.mp hj
  obtain ⟨a, hn, ha⟩ := hm.object_of_mem hv hl ho (by rw [Object.kind, hbody]; simp [Body.kind])
  have halive := hn.alive hm.pictures.sound.consistent
  obtain ⟨o', ho', -, hd⟩ := hm.pictures.body halive ha
  rw [ho] at ho'
  cases ho'
  rw [hbody] at hd
  cases hd with
  | @instance_ _ _ _ fields hobj _ ht =>
    have hget := ht.get?_eq hm.pictures.sound hs
    rw [hu] at hget
    cases hfield : fields s.chars with
    | none =>
      rw [hfield] at hget
      cases hget
    | some e =>
      rw [hfield] at hget
      obtain ⟨u', hu', hshow, -⟩ := hget
      cases hu'
      exact ⟨e, hshow⟩

end Mirrors

end

namespace MachineM

/-- A method of a class, bound to a receiver; its closure is held while it is made. -/
def boundMethod (class_ : Loc) (receiver : Value) (name : Symbol) : MachineM Value := do
  let method ← findMethod class_ name
  let depth ← onHeap (HeapM.hold method)
  let closure ← locOfValue method
  let _ ← closureAt closure
  let bound ← onHeap do valueOf (← HeapM.newBoundMethod receiver closure)
  onHeap (HeapM.unhold depth)
  return bound

theorem locOfValue_setHolds {h : Heap} {v : Value} {holds : List Value} :
    locOfValue v { h with holds } = locOfValue v h := by
  rw [locOfValue_eq, locOfValue_eq]
  rfl

theorem boundMethod_eq_ok {m m' : Machine} {l : Loc} {u b : Value} {s : Symbol} (h : boundMethod l u s m = .ok b m') :
    ∃ c v k cl, classAt l m.heap = .ok c ∧ c.methods.get? s = some v ∧ locOfValue v m.heap = .ok k ∧
      closureAt k m.heap = .ok cl := by
  unfold boundMethod at h
  obtain ⟨v, m₁, hfind, hrest₁⟩ := bind_eq_ok h
  obtain ⟨rfl, c, hc, hv⟩ := findMethod_eq_ok hfind
  obtain ⟨depth, m₂, hhold, hrest₂⟩ := bind_eq_ok hrest₁
  have hhold' : onHeap (HeapM.hold v) m₁ =
      .ok (m₁.heap.holds.length + 1) { m₁ with heap := m₁.heap.holding v } := rfl
  rw [hhold'] at hhold
  cases hhold
  obtain ⟨k, m₃, hview, hrest₃⟩ := bind_eq_ok hrest₂
  obtain ⟨rfl, hk⟩ := view_eq_ok hview
  obtain ⟨cl, m₄, hview', -⟩ := bind_eq_ok hrest₃
  obtain ⟨rfl, hcl⟩ := view_eq_ok hview'
  obtain ⟨o, ho, hb⟩ := closureAt_eq_ok.mp hcl
  exact ⟨c, v, k, cl, hc, hv, locOfValue_setHolds.symm.trans hk, closureAt_eq_ok.mpr ⟨o, ho, hb⟩⟩

theorem bindMethod_eq {m : Machine} {u : Value} (hpeek : ∀ heap, peek 0 { m with heap } = .ok u { m with heap })
    (l : Loc) (s : Symbol) : bindMethod l s m =
      (do let bound ← boundMethod l u s; let _ ← pop; push bound : MachineM Unit) m := by
  unfold bindMethod boundMethod
  simp only [bind_assoc]
  rw [runBind, runBind]
  cases hfind : findMethod l s m with
  | error e m₁ => rfl
  | ok v m₁ =>
    obtain ⟨rfl, -⟩ := findMethod_eq_ok hfind
    have hhold : onHeap (HeapM.hold v) m₁ =
      .ok (m₁.heap.holds.length + 1) { m₁ with heap := m₁.heap.holding v } := rfl
    dsimp only
    rw [runBind, runBind, hhold]
    dsimp only
    rw [runBind, hpeek]
    rfl

end MachineM

theorem Mirrors.sim_boundMethod {w : World} {m : Machine} {i : Ideal} (hm : Mirrors w m i) {s : Symbol} {v u : Value}
    {x : Val} {k l : Loc} {c : Class} (hc : classAt l m.heap = .ok c) (hv : c.methods.get? s = some v)
    (hx : m.heap.Shows w v x) (hn : m.heap.Names v k) (hk : ∃ cl, closureAt k m.heap = .ok cl) (hu : u ∈ m.values) :
    Sim m i (boundMethod l u s) (pure () : IdealM Unit) fun b _ m' _ => ∃ heap, m' = { m with heap } ∧
      Mirrors w m' i ∧ ∃ l o, heap.Names b l ∧ heap.objects[l]? = some o ∧ o.body = .boundMethod ⟨u, k⟩ := by
  have hfind : findMethod l s m = .ok v m := by
    unfold findMethod
    rw [runBind, MachineM.run_view, hc]
    dsimp only
    rw [hv]
    rfl
  have hhold : onHeap (HeapM.hold v) m =
      .ok (m.heap.holds.length + 1) { m with heap := m.heap.holding v } := rfl
  obtain ⟨cl, hk⟩ := hk
  obtain ⟨o, ho, hb⟩ := closureAt_eq_ok.mp hk
  unfold boundMethod
  refine Sim.act_bind hfind (Sim.act_bind hhold ?_)
  refine Sim.act_view (a := k) (Names.locOfValue (h := m.heap.holding v) hn) ?_
  refine Sim.act_view (a := cl) (closureAt_eq_ok.mpr ⟨o, ho, hb⟩) ?_
  refine Sim.act_heap (delivers_value (hm.creates_bound hx hu hn) fun _ _ hc => hc.alive) fun b h' hcreated => ?_
  obtain ⟨l', hc', hn'⟩ := hcreated
  refine Sim.act_bind (hm.unhold hc'.turns.holds) (.pure ⟨_, rfl, hm.release hx hc'.turns, ?_⟩)
  obtain ⟨o', ho', -, hb'⟩ := hc'.object
  exact ⟨l', o', hn', ho', hb'⟩

theorem Mirrors.bindMethod_eq_ok {w : World} {m m' : Machine} {i : Ideal} (hm : Mirrors w m i) (hne : i.stack ≠ [])
    {l : Loc} {a : Nat} {className : Bytes} {methods : Dict Nat} (ha : m.heap.Alive l) (hw : w l = some (.object a))
    (hobj : i.objects[a]? = some (.class_ className methods)) {s : Symbol}
    (hs : m.heap.IsString s.loc s.chars s.hash) (h : bindMethod l s m = .ok () m') : m'.heap.Exhausted ∨
      ∃ k, m.method? l s.chars = some k ∧ m'.bound? = some k := by
  obtain ⟨xs, x, hxs⟩ := (List.eq_nil_or_concat' i.stack).resolve_left hne
  obtain ⟨u, -, hu, hpeek⟩ := hm.peek (d := 0) (x := x) (by rw [hxs]; simp) (by rw [hxs]; simp)
  rw [bindMethod_eq hpeek] at h
  obtain ⟨b, m₁, hbound, hrest⟩ := bind_eq_ok h
  obtain ⟨c, v, k, cl, hc, hv, hk, hclosure⟩ := boundMethod_eq_ok hbound
  obtain ⟨c', hc', hmethod⟩ := hm.method ha hw hobj hs
  obtain rfl : c = c' := Except.ok.inj (hc.symm.trans hc')
  obtain ⟨n, hshow⟩ : ∃ n, m.heap.Shows w v (.object n) := by
    cases hi : methods s.chars with
    | none =>
      rw [hi, hv] at hmethod
      cases hmethod
    | some n =>
      rw [hi] at hmethod
      obtain ⟨v', hv', hshow⟩ := hmethod
      obtain rfl : v = v' := Option.some.inj (hv.symm.trans hv')
      exact ⟨n, hshow⟩
  obtain ⟨k', hn, -⟩ := id hshow
  obtain rfl : k' = k := Except.ok.inj (hn.locOfValue.symm.trans hk)
  have hsim := hm.sim_boundMethod hc hv hshow hn ⟨cl, hclosure⟩ hu
  unfold Sim at hsim
  rw [hbound] at hsim
  rcases hsim with he | ⟨heap, rfl, hm₁, hmade⟩
  · exact .inl (Grows.ok he hrest)
  obtain ⟨l', o, hname, ho, hbody⟩ := hmade
  -- it replaces the receiver
  obtain ⟨vs, u', hvs⟩ : ∃ vs u', m.values = vs ++ [u'] := by
    obtain ⟨vs, u', hvs, -⟩ := forall₂_snoc_inv hm.stack hxs
    exact ⟨vs, u', hvs⟩
  obtain ⟨hpop, hfilled, -⟩ := pop_of_values hm₁.filled hvs
  rw [runBind, hpop] at hrest
  dsimp only at hrest
  obtain ⟨stack, hpush, hvalues⟩ := push_eq b ({ m with heap, sp := m.sp - 1 } : Machine)
  rw [hpush] at hrest
  cases hrest
  refine .inr ⟨k', hm.method?_eq hs hc hv hk, ?_⟩
  have htop : ({ m with heap, stack, sp := m.sp - 1 + 1 } : Machine).top? 0 = some l' := by
    refine Machine.top?_eq ?_ hname.locOfValue ho (by rw [Object.kind, hbody]; simp [Body.kind])
    rw [(hvalues hfilled).2]
    simp
  simp only [Machine.bound?, htop, Option.bind_eq_bind, Option.bind_some, ho, hbody]

structure Machine.Constructed (m m' : Machine) (l k : Loc) : Prop where
  fresh : m.heap.objects.size ≤ k
  instance_ : instanceAt k m'.heap = .ok ⟨l, .empty⟩
  place : m'.calls = m.calls ∧ m'.top? 0 = some k ∨ ∃ f, m'.calls = m.calls.push f ∧
    m'.method? l "init" = some f.closure ∧ m'.receiver? = some k

theorem Mirrors.construct_eq_ok {w : World} {m m' : Machine} {i : Ideal} (hm : Mirrors w m i) {v : Value} {l : Loc}
    {count : Nat} (hv : v ∈ m.values) (hn : m.heap.Names v l) (h : construct l count m = .ok () m') :
    m'.heap.Exhausted ∨ ∃ k, m.Constructed m' l k := by
  obtain ⟨u, heap, stack, c, hact, hc, hlt, hfilled, hvalues, hend⟩ := MachineM.construct_eq_ok hm.filled h
  have hheap : m'.heap = heap := by
    rcases hend with ⟨-, rfl⟩ | ⟨s, _, k, -, -, -, rfl⟩ <;> rfl
  have hcreate := delivers_value (hm.creates_instance (hm.safe_object hv hn)) fun _ _ hc => hc.alive
  unfold Delivers at hcreate
  rw [hact] at hcreate
  rw [hheap]
  refine hcreate.imp_right ?_
  rintro ⟨k, hcreated, hname⟩
  obtain ⟨o, ho, -, hbody⟩ := hcreated.object
  have hat : ({ m with heap, stack } : Machine).values[m.sp - 1 - count]? = some u := by
    rw [hvalues, List.getElem?_set_self]
    rw [hm.filled.length]
    omega
  refine ⟨k, hcreated.fresh, hheap ▸ instanceAt_eq_ok.mpr ⟨o, ho, hbody⟩, ?_⟩
  rcases hend with ⟨rfl, rfl⟩ | ⟨s, x, f, hs, hx, hf, rfl⟩
  · refine .inl ⟨rfl, Machine.top?_eq ?_ hname.locOfValue ho (by rw [Object.kind, hbody]; simp [Body.kind])⟩
    have hlength := hfilled.length
    rw [List.getElem?_reverse (by rw [hlength]; exact hlt), hlength]
    exact hat
  · refine .inr ⟨_, rfl, ?_, ?_⟩
    · obtain ⟨s', hs', hchars, hstring⟩ := (hm.turn hcreated.turns).initName
      obtain rfl : s = s' := Option.some.inj (hs.symm.trans hs')
      rw [← hchars]
      exact (hm.turn hcreated.turns).method?_eq hstring hc hx hf
    · have hbase : ((m.sp : Int) - count - 1).toNat = m.sp - 1 - count := by omega
      have hplace : (m.calls.push ⟨f, 0, (m.sp : Int) - count - 1⟩).frames.head? = some ⟨f, 0, (m.sp : Int) - count -
          1⟩ := rfl
      have hat' : ({ m with heap, stack, calls := m.calls.push ⟨f, 0, (m.sp : Int) - count - 1⟩ } : Machine).values[
        m.sp - 1 - count]? = some u := hat
      simp only [hbase, Machine.receiver?, hplace, Option.bind_eq_bind, Option.bind_some]
      rw [hat', Option.bind_some, hname.locOfValue]
      rfl

end Lox
