import Lox.Proofs.Safety.Tables

namespace Lox

open Heap HeapView MachineM

section

variable {w : World} {m x y z : Machine} {i i' : Ideal} {Γ Γ' : Facts} {l k c r : Loc} {v u : Value} {s : Symbol}
  {n : Nat}

structure Machine.Calling (x m : Machine) (v : Value) : Prop where
  heap : m.heap = x.heap
  closures : m.calls.frames.map (·.closure) = x.calls.frames.map (·.closure)
  mem : v ∈ m.values

theorem Mirrors.name_count_eq_ok (hm : Mirrors w x i) {op : Opcode} {name : Bytes} (act : Symbol → Nat → MachineM Unit)
    (hinstr : x.instr? = some (op, some name)) (hn : x.operand? 2 = some n)
    (hact : op ≠ .return_ ∧ execute op = do
      let s ← readName
      let count ← readByte
      act s count.toNat) (hstep : MachineM.step x = .ok true y) :
    ∃ s i' calls, s.chars = name ∧ x.heap.IsString s.loc s.chars s.hash ∧ Mirrors w { x with calls } i' ∧
      calls.frames.map (·.closure) = x.calls.frames.map (·.closure) ∧ act s n { x with calls } = .ok () y := by
  obtain ⟨f, rest, fn, hex, hname, hstep'⟩ := step_eq hinstr hact.1
  rw [hstep', hact.2] at hstep
  obtain ⟨⟨⟩, y', hexecute, hpure⟩ := bind_eq_ok hstep
  cases hpure
  obtain ⟨i₁, hm₁, -⟩ := hm.read hex.frames (f.ip + 1)
  have hex₁ := hex.jumpTo (f.ip + 1)
  obtain ⟨s, m₂, hread, hrest⟩ := bind_eq_ok hexecute
  obtain ⟨hat, ⟨u, hsymbol⟩, rfl⟩ := readName_eq_ok hex₁ hread
  obtain ⟨i₂, hm₂, -⟩ := hm₁.read hex₁.frames (f.ip + 1 + 1)
  have hex₂ := hex₁.jumpTo (f.ip + 1 + 1)
  obtain ⟨b, m₃, hbyte, hrest'⟩ := bind_eq_ok hrest
  obtain ⟨hb, rfl⟩ := readByte_eq_ok hex₂ hbyte
  obtain ⟨i₃, hm₃, -⟩ := hm₂.read hex₂.frames (f.ip + 1 + 1 + 1)
  obtain rfl : n = b.toNat := Option.some.inj (hn.symm.trans (hex.operand? hb))
  refine ⟨s, i₃, _, ?_, isString_of_asSymbol hm.pictures.sound.consistent hsymbol, hm₃, ?_, hrest'⟩
  · exact Option.some.inj (hat.symm.trans hname.symm)
  · exact (closures_jumpTo _).trans ((closures_jumpTo _).trans (closures_jumpTo _))

theorem Mirrors.callee_eq_ok (hm : Mirrors w x i) (hl : x.callee? = some l) (hstep : MachineM.step x = .ok true y) :
    ∃ v count m i', Mirrors w m i' ∧ x.Calling m v ∧ locOfValue v x.heap = .ok l ∧ callValue v count m = .ok () y := by
  unfold Machine.callee? at hl
  simp only [Option.bind_eq_bind, Option.bind_eq_some_iff] at hl
  obtain ⟨⟨op, name⟩, hinstr, hl⟩ := hl
  split at hl
  · next hop =>
    cases hop
    obtain ⟨n, hn, htop⟩ := Option.bind_eq_some_iff.mp hl
    obtain ⟨f, rest, fn, hex, -, hstep'⟩ := step_eq hinstr (by decide)
    rw [hstep'] at hstep
    obtain ⟨⟨⟩, y', hexecute, hpure⟩ := bind_eq_ok hstep
    cases hpure
    obtain ⟨i₁, hm₁, -⟩ := hm.read hex.frames (f.ip + 1)
    obtain ⟨b, m₂, hbyte, hrest⟩ := bind_eq_ok (show callTop _ = .ok () y from hexecute)
    obtain ⟨hb, rfl⟩ := readByte_eq_ok (hex.jumpTo (f.ip + 1)) hbyte
    obtain ⟨i₂, hm₂, -⟩ := hm₁.read (hex.jumpTo (f.ip + 1)).frames (f.ip + 1 + 1)
    obtain rfl : n = b.toNat := Option.some.inj (hn.symm.trans (hex.operand? hb))
    obtain ⟨v, m₃, hpeek, hcall⟩ := bind_eq_ok hrest
    obtain ⟨rfl, hv⟩ := peek_eq_ok hm₂.filled hpeek
    obtain ⟨v', hv', hloc⟩ := Machine.value_of_top? htop
    obtain rfl : v = v' := Option.some.inj (hv.symm.trans hv')
    refine ⟨v, _, _, _, hm₂, ⟨rfl, ?_, List.mem_reverse.mp (List.mem_of_getElem? hv)⟩, hloc, hcall⟩
    exact (closures_jumpTo _).trans (closures_jumpTo _)
  · next name hop =>
    cases hop
    obtain ⟨n, hn, hfield⟩ := Option.bind_eq_some_iff.mp hl
    obtain ⟨r, htop, hfield⟩ := Option.bind_eq_some_iff.mp hfield
    obtain ⟨s, i', calls, rfl, hs, hm', hclosures, hinvoke⟩ := hm.name_count_eq_ok invoke hinstr hn ⟨by decide, rfl⟩
        hstep
    obtain ⟨v, l', j, hv, hr, hj, hend⟩ := MachineM.invoke_eq_ok hm'.filled hinvoke
    obtain ⟨v', hv', hloc⟩ := Machine.value_of_top? htop
    obtain rfl : v = v' := Option.some.inj (hv.symm.trans hv')
    obtain rfl : l' = r := Except.ok.inj (hr.symm.trans hloc)
    -- the field
    simp only [Machine.field?, Machine.entry?, Option.bind_eq_bind, Option.bind_eq_some_iff] at hfield
    obtain ⟨j', hj', u, hu, hl⟩ := hfield
    rw [show instanceAt l' x.heap = .ok j from hj] at hj'
    cases hj'
    rw [hm.binding?_eq hs] at hu
    have hl := Machine.ok_of_toOption hl
    rcases hend with ⟨u', m₁, hu', hwrite, hcall⟩ | ⟨hnone, -⟩
    · obtain rfl : u = u' := Option.some.inj (hu.symm.trans hu')
      obtain ⟨e, he⟩ := hm'.shows_field (List.mem_reverse.mp (List.mem_of_getElem? hv)) hr hj hs hu
      obtain ⟨i₁, stack, hm₁, rfl, hmem⟩ := hm'.write he hwrite
      exact ⟨u, _, _, _, hm₁, ⟨rfl, hclosures, hmem⟩, hl, hcall⟩
    · rw [hu] at hnone
      cases hnone
  · cases hl

theorem Mirrors.constructs (hm : Mirrors w x i) (hl : x.callee? = some l) {c : Class} (hc : classAt l x.heap = .ok c)
    (hstep : MachineM.step x = .ok true y) : y.heap.Exhausted ∨ ∃ k, x.heap.objects.size ≤ k ∧
      instanceAt k y.heap = .ok ⟨l, .empty⟩ ∧ (y.depth = x.depth ∧ y.top? 0 = some k ∨ ∃ c, y.depth = x.depth + 1 ∧
        y.innermost? = some c ∧ y.method? l "init" = some c ∧ y.receiver? = some k) := by
  obtain ⟨v, count, m, i', hm', ⟨hheap, hclosures, hmem⟩, hv, hcall⟩ := hm.callee_eq_ok hl hstep
  rw [← hheap] at hv hc
  obtain ⟨o, ho, hbody⟩ := classAt_eq_ok.mp hc
  rw [callValue_class hv hc] at hcall
  obtain ⟨a, hn, -⟩ := hm'.object_of_mem hmem hv ho (by rw [Object.kind, hbody]; simp [Body.kind])
  have hdepth := depth_eq hclosures
  refine (hm'.construct_eq_ok hmem hn hcall).imp_right ?_
  rintro ⟨k, hfresh, hinstance, ⟨hcalls, htop⟩ | ⟨f, hcalls, hmethod, hreceiver⟩⟩
  · refine ⟨k, hheap ▸ hfresh, hinstance, .inl ⟨?_, htop⟩⟩
    rw [← hdepth, Machine.depth, hcalls, Machine.depth]
  · refine ⟨k, hheap ▸ hfresh, hinstance, .inr ⟨f.closure, ?_, ?_, hmethod, hreceiver⟩⟩
    · rw [← hdepth, Machine.depth, hcalls]
      rfl
    · rw [Machine.innermost?, hcalls]
      rfl

theorem Mirrors.enters (hm : Mirrors w x i) (h : x.CallsMethod l c) (hstep : MachineM.step x = .ok true y) :
    y.heap = x.heap ∧ y.depth = x.depth + 1 ∧ y.innermost? = some c ∧ y.receiver? = some l := by
  cases h with
  | @bound k o v hk ho hbody hl =>
    obtain ⟨u, count, m, i', hm', ⟨hheap, hclosures, hmem⟩, hu, hcall⟩ := hm.callee_eq_ok hk hstep
    rw [← hheap] at hu ho hl
    obtain ⟨hsame, hv, hcalls⟩ := callValue_bound_eq_ok hm'.filled hu ho hbody hcall
    exact ⟨hsame.trans hheap, depth_eq hclosures ▸ entered hcalls hv (hsame ▸ hl)⟩
  | @invoked name n j hinstr hn htop hj hnone hmethod =>
    obtain ⟨s, i', calls, rfl, hs, hm', hclosures, hinvoke⟩ := hm.name_count_eq_ok invoke hinstr hn ⟨by decide, rfl⟩
        hstep
    obtain ⟨v, l', j', hv, hr, hj', hend⟩ := MachineM.invoke_eq_ok hm'.filled hinvoke
    obtain ⟨v', hv', hloc⟩ := Machine.value_of_top? htop
    obtain rfl : v = v' := Option.some.inj (hv.symm.trans hv')
    obtain rfl : l' = l := Except.ok.inj (hr.symm.trans hloc)
    obtain rfl : j = j' := Except.ok.inj (hj.symm.trans hj')
    rw [hm.binding?_eq hs] at hnone
    rcases hend with ⟨u, -, hu, -⟩ | ⟨-, hfrom⟩
    · rw [hnone] at hu
      cases hu
    · obtain ⟨c', u, k, hc, hu, hk, hy⟩ := invokeFromClass_eq_ok hfrom
      obtain rfl : c = k := Option.some.inj (hmethod.symm.trans (hm.method?_eq hs hc hu hk))
      have hdepth : ({ x with calls } : Machine).depth = x.depth := depth_eq hclosures
      have hat := value_under hm'.filled hv
      subst hy
      exact ⟨rfl, hdepth ▸ entered (y := { x with calls := calls.push _ }) (m := { x with calls }) rfl hat hr⟩
  | @super name n k hinstr hn htop hunder hmethod =>
    obtain ⟨s, i', calls, rfl, hs, hm', hclosures, hinvoke⟩ := hm.name_count_eq_ok
      (fun s n => do invokeFromClass (← popClass) s n) hinstr hn ⟨by decide, rfl⟩ hstep
    obtain ⟨k', m₁, hpop, hfrom⟩ := bind_eq_ok hinvoke
    obtain ⟨vs, u, hvs, hk', rfl⟩ := popClass_eq_ok hm'.filled hpop
    obtain ⟨-, hfilled, hvalues⟩ := pop_of_values hm'.filled hvs
    obtain ⟨c', u', k'', hc, hu, hk, rfl⟩ := invokeFromClass_eq_ok hfrom
    -- the class, and the receiver under the arguments
    have hvalues' : x.values = vs ++ [u] := hvs
    obtain ⟨v, hv, hkk⟩ := Machine.value_of_top? htop
    obtain ⟨r, hr, hl⟩ := Machine.value_of_top? hunder
    rw [hvalues', List.reverse_append, List.reverse_singleton, List.singleton_append] at hv hr
    obtain rfl : u = v := Option.some.inj hv
    obtain rfl : k' = k := Except.ok.inj (hk'.symm.trans hkk)
    obtain rfl : c = k'' := Option.some.inj (hmethod.symm.trans (hm.method?_eq hs hc hu hk))
    have hdepth : ({ x with calls, sp := x.sp - 1 } : Machine).depth = x.depth := depth_eq hclosures
    have hat := value_under (n := n) (v := r) hfilled (by rw [hvalues]; exact hr)
    exact ⟨rfl, hdepth ▸ entered (y := { x with calls := calls.push _, sp := x.sp - 1 })
      (m := { x with calls, sp := x.sp - 1 }) rfl hat hl⟩

def Facts.Inside (Γ : Facts) (i : Ideal) (c : Nat) (e : Val) (cs : List Nat) : Prop :=
  ∃ us es rest, us.length = es.length ∧ i.closures = us ++ c :: cs ∧ Γ.firsts = es ++ e :: rest

theorem Facts.Inside.turn {a : Nat} {e : Val} {cs : List Nat} (h : Γ.Inside i a e cs) (ht : Γ.Turn Γ' i i') :
    Γ'.Inside i' a e cs ∨
      (i'.closures = cs ∧ ((Γ.listing a).kind = .initializer → i'.stack.reverse[0]? = some e)) := by
  obtain ⟨us, es, rest, hlength, hclosures, hfirsts⟩ := h
  cases ht with
  | stays hc hf => exact .inl ⟨us, es, rest, hlength, hc.trans hclosures, hf.trans hfirsts⟩
  | @enters b v hc hf =>
    refine .inl ⟨b :: us, v :: es, rest, by simp [hlength], ?_, ?_⟩
    · rw [hc, hclosures]
      rfl
    · rw [hf, hfirsts]
      rfl
  | @leaves b v hc hf hv =>
    rw [hclosures] at hc
    rw [hfirsts] at hf
    cases us with
    | nil =>
      cases es with
      | nil =>
        obtain ⟨rfl, hcs⟩ := List.cons.inj hc
        obtain ⟨rfl, -⟩ := List.cons.inj hf
        exact .inr ⟨hcs.symm, hv⟩
      | cons => cases hlength
    | cons u us =>
      cases es with
      | nil => cases hlength
      | cons e' es => exact .inl ⟨us, es, rest, Nat.succ.inj hlength, (List.cons.inj hc).2.symm,
            (List.cons.inj hf).2.symm⟩

theorem Facts.Inside.length {a : Nat} {e : Val} {cs : List Nat} (h : Γ.Inside i a e cs) :
    cs.length < i.closures.length := by
  obtain ⟨us, es, rest, -, hclosures, -⟩ := h
  rw [hclosures, List.length_append, List.length_cons]
  omega

theorem Mirrors.depth_eq (hm : Mirrors w m i) : m.depth = i.closures.length := by
  rw [Machine.depth, hm.frames.length_eq, Ideal.closures, List.length_map]

end

namespace Stands

variable {m y z : Machine} {L : Lineage} {w : World} {i : Ideal} {Γ : Facts} {l k c : Loc}
  {before between : List Machine} {source name : Bytes}

theorem inside (h : Stands y L w i Γ) (hc : y.innermost? = some c) (hl : y.receiver? = some l) {j : Instance}
    (hj : instanceAt l y.heap = .ok j) : ∃ a b cs, w.Numbers c a ∧ w.Numbers l b ∧ Γ.Inside i a (.object b) cs ∧
      i.closures = a :: cs := by
  obtain ⟨-, f, frames, p, sheet, s, below, hrunning, -⟩ := h.sound
  obtain ⟨g, gs, hg, hsame, -⟩ := h.mirrors.frame hrunning.frames
  rw [Machine.innermost?, hg] at hc
  cases hc
  obtain ⟨g', gs', v, hg', hv, hloc⟩ := Machine.value_of_receiver? hl
  rw [hg] at hg'
  cases hg'
  have hbase : g.base.toNat = f.base := by rw [hsame.base]; rfl
  have hfirsts := hrunning.typed.firsts
  rw [hrunning.frames] at hfirsts
  generalize hΓ : Γ.firsts = firsts at hfirsts
  cases hfirsts with
  | @cons _ e _ es he _ =>
    obtain ⟨v', hv', hshow⟩ := forall₂_getElem? h.mirrors.stack he.1
    obtain rfl : v = v' := Option.some.inj (hv.symm.trans (hbase ▸ hv'))
    obtain ⟨o, ho, hbody⟩ := instanceAt_eq_ok.mp hj
    obtain ⟨b, rfl, -, hb⟩ := hshow.object hloc ho (by rw [Object.kind, hbody]; simp [Body.kind])
    exact ⟨f.closure, b, _, hsame.closure, hb, ⟨[], [], es, rfl, hrunning.closures, hΓ⟩, hrunning.closures⟩

theorem yields_receiver (h : Stands y (Machine.story (y :: before)) w i Γ) (hc : y.innermost? = some c)
    (hinit : (("init" : Bytes), c) ∈ (Machine.story (y :: before)).own k) (hl : y.receiver? = some l) {j : Instance}
    (hj : instanceAt l y.heap = .ok j) (htrail : Machine.Trail m source (z :: (between ++ y :: before)))
    (hdeep : ∀ u ∈ between, y.depth ≤ u.depth) (hz : z.depth < y.depth) : z.heap.Exhausted ∨ z.top? 0 = some l := by
  obtain ⟨a, b, cs, ha, hb, hinside, hclosures⟩ := h.inside hc hl hj
  obtain ⟨a', k', ha', -, hinit'⟩ := h.story.declared hinit
  obtain rfl : a' = a := h.mirrors.biUnique.2 ha' ha
  have hdepth : y.depth = cs.length + 1 := by rw [h.mirrors.depth_eq, hclosures]; rfl
  -- the state in which the call returns
  obtain ⟨u, us, hsplit⟩ : ∃ u us, between ++ y :: before = u :: us := by
    cases between <;> exact ⟨_, _, rfl⟩
  rw [hsplit] at htrail
  obtain ⟨htrail', hstep⟩ := htrail.tail
  have halong := h.along (P := fun Γ i => Γ.Inside i a' (.object b) cs ∧ (("init" : Bytes), a') ∈ Γ.lineage.own k')
    ⟨hinside, hinit'⟩ htrail' hsplit.symm (by
      rintro u hu w i i' Γ Γ' hm - hleads ⟨hin, hmem⟩
      refine ⟨(hin.turn hleads.turn).resolve_right ?_, hleads.lineage ▸ Lineage.mem_own_after hmem _⟩
      rintro ⟨hcs, -⟩
      have hle := hdeep u hu
      rw [hm.depth_eq, hcs] at hle
      omega)
  rcases halong with he | ⟨w', i', Γ', hw, hstands, hin, hmem⟩
  · exact .inl (Grows.ok he hstep)
  refine (hstands.step hstep).imp_right ?_
  rintro ⟨w'', i'', Γ'', hw', hstands', -, hleads⟩
  have hout : ¬Γ''.Inside i'' a' (.object b) cs := by
    intro hin'
    have hlt := hin'.length
    rw [← hstands'.mirrors.depth_eq] at hlt
    omega
  obtain ⟨-, hreturns⟩ := (hin.turn hleads.turn).resolve_left hout
  have hfirst := hreturns ((hstands.genuine.owners _ _ _ hmem).2.2.2.1 rfl)
  have htop := hstands'.mirrors.top? 0
  rw [show i''.top? 0 = some b from congrArg (·.bind Val.address?) hfirst] at htop
  generalize z.top? 0 = o at htop
  cases htop with
  | some hl' => rw [hstands'.mirrors.biUnique.1 hl' (hw' _ _ (hw _ _ hb))]

theorem hasClass_of_receiver (h : Stands y L w i Γ) (hl : y.receiver? = some k) {j : Instance}
    (hj : instanceAt k y.heap = .ok j) (hmethod : y.method? j.class_ name = some c) : y.HasClass j.class_ := by
  obtain ⟨f, fs, v, hf, hv, hloc⟩ := Machine.value_of_receiver? hl
  have hmem := List.mem_of_getElem? hv
  obtain ⟨o, ho, hbody⟩ := instanceAt_eq_ok.mp hj
  obtain ⟨a, hn, -⟩ := h.mirrors.object_of_mem hmem hloc ho (by rw [Object.kind, hbody]; simp [Body.kind])
  unfold Machine.method? at hmethod
  simp only [Option.bind_eq_bind, Option.bind_eq_some_iff] at hmethod
  obtain ⟨cls, hcls, -⟩ := hmethod
  refine ⟨.link (.root (h.mirrors.value_root hmem) hn.leads) ?_ (.object _), cls, Machine.ok_of_toOption hcls⟩
  rw [linksAt, ho]
  dsimp only
  rw [hbody]
  exact .head _

end Stands

def endsAfterCall : List Machine → Bool
  | z :: u' :: u :: x :: _ => decide (z.heap.slots.size ≤ 2 ^ 32 ∧ x.callee? = some 9 ∧
      (classAt 9 x.heap).isOk ∧ x.depth < u.depth ∧ x.depth < u'.depth ∧ z.depth = x.depth)
  | _ => false

end Lox
