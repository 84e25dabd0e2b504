import Lox.Proofs.Ideal.Simulate
import Lox.Proofs.Ideal.Views

namespace Lox

open Heap HeapView MachineM

variable {α β γ δ : Type}

namespace Sim

variable {m : Machine} {i : Ideal} {act : MachineM α} {post : α → δ → Machine → Ideal → Prop}

theorem spec_get {g : Ideal → IdealM δ} (hg : Sim m i act (g i) post) :
    Sim m i act (get >>= g) post :=
  hg

theorem spec_calleeSlot {count : Nat} {g : Nat → IdealM δ}
    (hg : i.floor + count < i.stack.length → Sim m i act (g (i.stack.length - 1 - count)) post) :
    Sim m i act (IdealM.calleeSlot count >>= g) post := by
  unfold IdealM.calleeSlot
  rw [bind_assoc]
  refine spec_get ?_
  split
  · next h => exact spec_bind rfl (hg h)
  · trivial

theorem spec_peek {d : Nat} {g : Val → IdealM δ}
    (hg : ∀ x, i.floor + d < i.stack.length → i.stack[i.stack.length - 1 - d]? = some x →
      Sim m i act (g x) post) :
    Sim m i act (IdealM.peek d >>= g) post := by
  unfold IdealM.peek
  rw [bind_assoc]
  refine spec_get ?_
  split
  · next h => exact spec_ofOption fun x hx => hg x h hx
  · trivial

theorem spec_object {a : Nat} {g : Obj Routine → IdealM δ}
    (hg : ∀ x, i.objects[a]? = some x → Sim m i act (g x) post) :
    Sim m i act (IdealM.object a >>= g) post := by
  unfold IdealM.object
  cases hx : i.objects[a]? with
  | none =>
    unfold Sim
    rw [runBind, runBind]
    simp only [runGet, hx]
    trivial
  | some x =>
    have hobj : IdealM.object a i = .ok x i := by
      unfold IdealM.object
      rw [runBind]
      simp only [runGet, hx]
      rfl
    exact spec_bind hobj (hg x hx)

theorem spec_closureAt {a : Nat} {g : Routine → IdealM δ}
    (hg : ∀ r, i.objects[a]? = some (.closure r) → Sim m i act (g r) post) :
    Sim m i act (IdealM.closureAt a >>= g) post := by
  unfold IdealM.closureAt
  rw [bind_assoc]
  refine spec_object fun x hx => ?_
  cases x with
  | closure r => exact spec_bind rfl (hg r hx)
  | _ => trivial

theorem spec_classAt {a : Nat} {g : Bytes × Dict Nat → IdealM δ}
    (hg : ∀ name methods, i.objects[a]? = some (.class_ name methods) →
      Sim m i act (g (name, methods)) post) :
    Sim m i act (IdealM.classAt a >>= g) post := by
  unfold IdealM.classAt
  rw [bind_assoc]
  refine spec_object fun x hx => ?_
  cases x with
  | class_ name methods => exact spec_bind rfl (hg name methods hx)
  | _ => trivial

theorem spec_asClass {x : Val} {g : Nat → IdealM δ}
    (hg : ∀ a name methods, x = .object a → i.objects[a]? = some (.class_ name methods) →
      Sim m i act (g a) post) :
    Sim m i act (IdealM.asClass x >>= g) post := by
  cases x with
  | object a =>
    unfold IdealM.asClass
    rw [bind_assoc]
    refine spec_classAt fun name methods ha => ?_
    exact spec_bind rfl (hg a name methods rfl ha)
  | _ => trivial

theorem spec_frame {g : Activation → IdealM δ}
    (hg : ∀ a as, i.frames = a :: as → Sim m i act (g a) post) :
    Sim m i act (IdealM.frame >>= g) post := by
  unfold IdealM.frame
  rw [bind_assoc]
  refine spec_get ?_
  cases hf : i.frames with
  | nil => trivial
  | cons a as => exact spec_bind rfl (hg a as hf)

end Sim

section

variable {w : World} {m : Machine} {i : Ideal} (hm : Mirrors w m i)

include hm

theorem Mirrors.frame {a : Activation} {as : List Activation} (ha : i.frames = a :: as) :
    ∃ f fs, m.calls.frames = f :: fs ∧ SameCall w m.heap f a ∧
      List.Forall₂ (SameCall w m.heap) fs as := by
  have h := hm.frames
  rw [ha] at h
  generalize m.calls.frames = fs at h
  cases h with
  | cons hf hfs => exact ⟨_, _, rfl, hf, hfs⟩

theorem Mirrors.peek {d : Nat} {x : Val} (hd : d < i.stack.length)
    (hx : i.stack[i.stack.length - 1 - d]? = some x) : ∃ v, m.heap.Shows w v x ∧ v ∈ m.values ∧
      ∀ heap, MachineM.peek d { m with heap } = .ok v { m with heap } := by
  obtain ⟨v, hv, hshow⟩ := forall₂_getElem? hm.stack hx
  have hsp := hm.sp_eq
  refine ⟨v, hshow, List.mem_of_getElem? hv, fun heap => ?_⟩
  refine peek_of_values ⟨hm.filled.written, hm.filled.room⟩ (show d < m.sp by omega) ?_
  show m.values[m.sp - 1 - d]? = some v
  rw [hsp, hv]

omit hm in
theorem frame_of_frames {f : Frame} {fs : List Frame} (hf : m.calls.frames = f :: fs) :
    MachineM.frame m = .ok f m := by
  unfold MachineM.frame
  rw [runBind]
  simp only [runGet, hf]
  rfl

theorem Mirrors.function {l : Loc} {a : Nat} {r : Routine} (ha : m.heap.Alive l)
    (hw : w l = some (.object a)) (hx : i.objects[a]? = some (.closure r)) :
    ∃ fn, functionOf l m = .ok fn m ∧ m.heap.ShowsFunction w fn r.prototype ∧
      (m.heap.Reach (m.heap.origins (roots m)) l → ∀ link ∈ (Body.function fn).links,
        m.heap.Safe (roots m) link) := by
  obtain ⟨c, hc, hwf, hfa, -, hcl⟩ := hm.pictures.closure ha hw hx
  obtain ⟨fn, hfn, hs, hfl⟩ := hm.pictures.function hfa hwf
  refine ⟨fn, ?_, hs, fun hreach link hl => ⟨?_, fun k hk => ?_⟩⟩
  · unfold functionOf
    rw [run_view, view_bind, hc]
    simp only [hfn]
  · exact hm.pictures.linked _ hfa link (by rw [hfl]; exact hl)
  · have hfun : .object c.function ∈ m.heap.linksAt l := by
      rw [hcl]
      exact .head _
    exact .link (.link hreach hfun (.object _)) (by rw [hfl]; exact hl) hk

omit hm in
theorem ideal_traceLine {a : Activation} {r : Routine} (hcl : IdealM.closureAt a.closure i = .ok r i) :
    IdealM.traceLine a i = match r.prototype.lines[a.ip - 1]? with
      | some line => .ok ⟨line, r.prototype.name.getD []⟩ i
      | none => .error (.fault .missing) i := by
  unfold IdealM.traceLine
  rw [runBind, hcl]
  simp only [runBind]
  cases r.prototype.lines[a.ip - 1]? <;> rfl

theorem traceLine_eq {f : Frame} {a : Activation} (hs : SameCall w m.heap f a) :
    (∃ t, IdealM.traceLine a i = .ok t i ∧ traceLine f m = .ok t m) ∨
      ∃ e, IdealM.traceLine a i = .error (.fault e) i := by
  cases hx : i.objects[a.closure]? with
  | none =>
    right
    refine ⟨.missing, ?_⟩
    simp only [IdealM.traceLine, IdealM.closureAt, IdealM.object, runBind, runGet, hx]
    rfl
  | some x =>
    cases x with
    | closure r =>
      have hcl : IdealM.closureAt a.closure i = .ok r i := by
        simp only [IdealM.closureAt, IdealM.object, runBind, runGet, hx]
        rfl
      rw [ideal_traceLine hcl]
      obtain ⟨fn, hfn, hsf, -⟩ := hm.function hs.alive hs.closure hx
      cases hline : r.prototype.lines[a.ip - 1]? with
      | none => exact .inr ⟨_, rfl⟩
      | some line =>
        left
        refine ⟨_, rfl, ?_⟩
        unfold traceLine
        rw [runBind, hfn]
        have hget : fn.chunk.lines.get? (f.ip - 1) = some (line : Int) := by
          rw [Growable.get?_eq, hsf.lines, hs.ip, List.getElem?_map, hline]
          rfl
        simp only [hget]
        rw [← hsf.name]
        cases fn.name <;> rfl
    | _ =>
      right
      refine ⟨.wrongKind, ?_⟩
      simp only [IdealM.traceLine, IdealM.closureAt, IdealM.object, runBind, runGet, hx]
      rfl

theorem mapM_traceLine_eq {fs : List Frame} {as : List Activation}
    (hs : List.Forall₂ (SameCall w m.heap) fs as) :
    (∃ ts, as.mapM IdealM.traceLine i = .ok ts i ∧ fs.mapM traceLine m = .ok ts m) ∨
      ∃ e, as.mapM IdealM.traceLine i = .error (.fault e) i := by
  induction hs with
  | nil => exact .inl ⟨[], rfl, rfl⟩
  | cons hfa _ ih =>
    simp only [List.mapM_cons, runBind, runBind]
    rcases traceLine_eq hm hfa with ⟨t, hi, hmach⟩ | ⟨e, hi⟩
    · rw [hi, hmach]
      rcases ih with ⟨ts, hi', hm'⟩ | ⟨e, hi'⟩
      · left
        refine ⟨t :: ts, ?_, ?_⟩
        · simp only [hi']
          rfl
        · simp only [hm']
          rfl
      · right
        refine ⟨e, ?_⟩
        simp only [hi']
    · rw [hi]
      exact .inr ⟨e, rfl⟩

theorem sim_raise (p : RuntimeProblem) {post : α → β → Machine → Ideal → Prop} :
    Sim m i (raise p) (IdealM.raise p) post := by
  rcases mapM_traceLine_eq hm hm.frames with ⟨ts, hi, hmach⟩ | ⟨e, hi⟩
  · have hspec : (IdealM.raise p : IdealM β) i = .error (.error ⟨p.message, ts⟩) i := by
      unfold IdealM.raise
      simp only [runBind, runGet, hi]
      rfl
    have hact : (raise p : MachineM α) m = .error (.error ⟨p.message, ts⟩) m := by
      unfold raise
      simp only [runBind, runGet, hmach]
      rfl
    unfold Sim
    rw [hspec, hact]
    exact .inr ⟨rfl, w, hm⟩
  · have hspec : (IdealM.raise p : IdealM β) i = .error (.fault e) i := by
      unfold IdealM.raise
      simp only [runBind, runGet, hi]
    unfold Sim
    rw [hspec]
    trivial

theorem sim_raise_bind_of_grows (p : RuntimeProblem) {f : α → MachineM γ} {g : β → IdealM δ}
    {post : γ → δ → Machine → Ideal → Prop} (hg : ∀ a, Grows (f a)) :
    Sim m i (raise p >>= f) (IdealM.raise p >>= g) post := by
  have h : Sim m i (raise p : MachineM α) (IdealM.raise p : IdealM β) fun _ _ _ _ => False :=
    sim_raise hm p
  exact h.bind fun _ _ _ _ h => h.elim

theorem sim_raise_bind (p : RuntimeProblem) {f : α → MachineM γ} {g : β → IdealM δ}
    {post : γ → δ → Machine → Ideal → Prop} [hg : ∀ a, Grows (f a)] :
    Sim m i (raise p >>= f) (IdealM.raise p >>= g) post :=
  sim_raise_bind_of_grows hm p hg

structure Moves (w : World) (m : Machine) (i : Ideal) (m' : Machine) (i' : Ideal) : Prop where
  mirrors : Mirrors w m' i'
  machine : ∃ calls, m' = { m with calls }
  ideal : ∃ frames, i' = { i with frames }

omit hm in
theorem jumpTo_frames {c : Calls} {f : Frame} {fs : List Frame} (hf : c.frames = f :: fs) (ip : Nat) :
    (c.jumpTo ip).frames = { f with ip } :: fs := by
  obtain ⟨frames, depth, hd⟩ := c
  simp only at hf
  subst hf
  rfl

theorem Mirrors.jumpTo {a : Activation} {as : List Activation} (ha : i.frames = a :: as) (ip : Nat) :
    Mirrors w { m with calls := m.calls.jumpTo ip } { i with frames := { a with ip } :: as } := by
  obtain ⟨f, fs, hfs, hs, hrest⟩ := hm.frame ha
  refine { hm with filled := ⟨hm.filled.written, hm.filled.room⟩, frames := ?_ }
  show List.Forall₂ _ (m.calls.jumpTo ip).frames _
  rw [jumpTo_frames hfs]
  exact .cons ⟨hs.closure, hs.alive, rfl, hs.base⟩ hrest

omit hm in
theorem IdealM.jumpTo_eq {a : Activation} {as : List Activation} (ha : i.frames = a :: as) (ip : Nat) :
    IdealM.jumpTo ip i = .ok () { i with frames := { a with ip } :: as } := by
  show EStateM.Result.ok () _ = _
  simp only [ha]

theorem sim_jumpTo {a : Activation} {as : List Activation} (ha : i.frames = a :: as) (ip : Nat) :
    Sim m i (jumpTo ip) (IdealM.jumpTo ip) fun _ _ => Moves w m i := by
  unfold Sim
  rw [IdealM.jumpTo_eq ha]
  exact .inr ⟨hm.jumpTo ha ip, ⟨_, rfl⟩, ⟨_, rfl⟩⟩

theorem sim_frame : Sim m i frame IdealM.frame fun f a m' i' =>
    m' = m ∧ i' = i ∧ SameCall w m.heap f a ∧ ∃ fs as, m.calls.frames = f :: fs ∧ i.frames = a :: as := by
  have h : Sim m i MachineM.frame (IdealM.frame >>= pure) fun f a m' i' => m' = m ∧ i' = i ∧
      SameCall w m.heap f a ∧ ∃ fs as, m.calls.frames = f :: fs ∧ i.frames = a :: as := by
    refine Sim.spec_frame fun a as ha => ?_
    obtain ⟨f, fs, hf, hs, -⟩ := hm.frame ha
    unfold Sim
    rw [frame_of_frames hf]
    exact .inr ⟨rfl, rfl, hs, fs, as, hf, ha⟩
  rwa [bind_pure] at h

omit hm in
theorem Sim.spec_readByte {act : MachineM α} {g : UInt8 → IdealM δ}
    {post : α → δ → Machine → Ideal → Prop}
    (hg : ∀ a as r b, i.frames = a :: as → i.objects[a.closure]? = some (.closure r) →
      r.prototype.code[a.ip]? = some b →
      Sim m { i with frames := { a with ip := a.ip + 1 } :: as } act (g b) post) :
    Sim m i act (IdealM.readByte >>= g) post := by
  unfold IdealM.readByte IdealM.prototype
  simp only [bind_assoc, pure_bind]
  refine Sim.spec_frame fun a as ha => ?_
  refine Sim.spec_frame fun a' as' ha' => ?_
  rw [ha] at ha'
  cases ha'
  refine Sim.spec_closureAt fun r hr => ?_
  refine Sim.spec_ofOption fun b hb => ?_
  exact Sim.spec_bind (IdealM.jumpTo_eq ha _) (hg a as r b ha hr hb)

omit hm in
theorem codeAt_eq {fn : Function} {p : Prototype} (hs : m.heap.ShowsFunction w fn p) {n : Nat}
    {b : UInt8} (hb : p.code[n]? = some b) : codeAt fn n m = .ok b m := by
  unfold codeAt
  rw [Growable.get?_eq, hs.code, hb]
  rfl

theorem sim_readByte : Sim m i readByte IdealM.readByte fun b b' m' i' =>
    b = b' ∧ Moves w m i m' i' := by
  rw [← bind_pure IdealM.readByte]
  refine Sim.spec_readByte fun a as r b ha hr hb => ?_
  obtain ⟨f, fs, hf, hs, -⟩ := hm.frame ha
  obtain ⟨fn, hfn, hsf, -⟩ := hm.function hs.alive hs.closure hr
  refine Sim.act_bind (frame_of_frames hf) (Sim.act_bind hfn ?_)
  rw [hs.ip]
  refine Sim.act_bind (codeAt_eq hsf hb) (Sim.act_bind rfl (.pure ⟨rfl, ?_⟩))
  exact ⟨hm.jumpTo ha _, ⟨_, rfl⟩, ⟨_, rfl⟩⟩

theorem sim_readShort : Sim m i readShort IdealM.readShort fun n n' m' i' =>
    n = n' ∧ Moves w m i m' i' := by
  refine Sim.spec_readByte fun a as r hi ha hr hhi => ?_
  refine Sim.spec_readByte fun a' as' r' lo ha' hr' hlo => ?_
  cases ha'
  rw [show i.objects[a.closure]? = some (.closure r') from hr'] at hr
  cases hr
  obtain ⟨f, fs, hf, hs, -⟩ := hm.frame ha
  obtain ⟨fn, hfn, hsf, -⟩ := hm.function hs.alive hs.closure hr'
  refine Sim.act_bind (frame_of_frames hf) (Sim.act_bind hfn ?_)
  rw [hs.ip]
  refine Sim.act_bind (codeAt_eq hsf hhi) (Sim.act_bind (codeAt_eq hsf hlo) ?_)
  refine Sim.act_bind rfl (.pure ⟨rfl, ?_⟩)
  exact ⟨hm.jumpTo ha _, ⟨_, rfl⟩, ⟨_, rfl⟩⟩

theorem sim_readConstant : Sim m i readConstant IdealM.readConstant fun v k m' i' =>
    Moves w m i m' i' ∧ m.heap.ShowsConstant w v k ∧ m'.heap.Safe (roots m') (.value v) := by
  refine (sim_readByte hm).bind_of_grows ?_ fun _ => .bind fun _ => .bind fun _ => by split <;> infer_instance
  rintro b _ m' i' ⟨rfl, hmove⟩
  have hm' := hmove.mirrors
  obtain ⟨calls, rfl⟩ := hmove.machine
  unfold IdealM.prototype
  simp only [bind_assoc, pure_bind]
  refine Sim.spec_frame fun a as ha => Sim.spec_closureAt fun r hr => ?_
  obtain ⟨f, fs, hf, hs, -⟩ := hm'.frame ha
  obtain ⟨fn, hfn, hsf, hsafe⟩ := hm'.function hs.alive hs.closure hr
  refine Sim.act_bind (frame_of_frames hf) (Sim.act_bind hfn ?_)
  cases hk : r.prototype.constants[b.toNat]? with
  | none => trivial
  | some k =>
    obtain ⟨v, hv, hshow⟩ := forall₂_getElem? hsf.constants hk
    rw [Growable.get?_eq, hv]
    refine .pure ⟨hmove, hshow, hsafe (.root (hm'.frame_root ?_) (.object _)) _ ?_⟩
    · rw [hf]
      exact .head _
    · exact List.mem_append.mpr (.inr (List.mem_map.mpr ⟨v, List.mem_of_getElem? hv, rfl⟩))

theorem sim_readName : Sim m i readName IdealM.readName fun s chars m' i' =>
    Moves w m i m' i' ∧ s.chars = chars ∧ m'.heap.IsString s.loc s.chars s.hash ∧
      m'.heap.Reach (m'.heap.origins (roots m')) s.loc := by
  refine (sim_readConstant hm).bind ?_
  rintro v k m' i' ⟨hmove, hshow, hsafe⟩
  obtain ⟨calls, rfl⟩ := hmove.machine
  cases k with
  | number _ => trivial
  | function _ => trivial
  | string chars =>
    obtain ⟨l, hash, hn, hstr⟩ := hshow
    unfold Sim
    rw [run_view]
    simp only [hn.asSymbol hstr]
    exact .inr ⟨hmove, rfl, hstr, hsafe.reach l hn.leads⟩

end

end Lox
