import Lox.Proofs.Safety.Calls

namespace Lox

namespace Facts

variable {Γ : Facts} {objects : List (Obj Routine)} {k p m : Nat} {name n : Bytes} {methods : Dict Nat} {v : Val}

def declare (Γ : Facts) (k : Nat) : Facts :=
  { Γ with declaring := some k }

def complete (Γ : Facts) : Facts :=
  { Γ with declaring := none }

def inherit (Γ : Facts) (k p : Nat) : Facts :=
  { Γ with lineage := Γ.lineage.after (.inherits k p) }

def method (Γ : Facts) (k : Nat) (name : Bytes) (m : Nat) : Facts :=
  { Γ with lineage := Γ.lineage.after (.declares k name m), pending := none }

theorem Genuine.last (h : Γ.Genuine objects) (hk : Γ.declaring = some k) :
    ∀ k', Γ.lineage.parent k' = some k → k' = k :=
  fun k' hp => (h.parents k' k hp).2.2 hk

theorem Genuine.unborn (h : Γ.Genuine objects) (hk : objects.length ≤ k) :
    Γ.lineage.own k = [] ∧ Γ.lineage.parent k = none := by
  constructor
  · cases hown : Γ.lineage.own k with
    | nil => rfl
    | cons x rest =>
      have hmem : (x.1, x.2) ∈ Γ.lineage.own k := by
        rw [hown]
        exact .head _
      exact absurd (h.owners k x.1 x.2 hmem).1.lt (Nat.not_lt.mpr hk)
  · cases hp : Γ.lineage.parent k with
    | none => rfl
    | some p => exact absurd (h.parents k p hp).1.lt (Nat.not_lt.mpr hk)

theorem not_nearest {L : Lineage} (hown : L.own k = []) (hparent : L.parent k = none) : ¬L.Nearest k n m := by
  intro h
  cases h with
  | own hm =>
    rw [hown] at hm
    cases hm
  | inherited _ hp _ =>
    rw [hparent] at hp
    cases hp

theorem Genuine.declare (h : Γ.Genuine objects) (hidle : Γ.declaring = none) (name : Bytes) :
    (Γ.declare objects.length).Genuine (objects ++ [.class_ name .empty]) := by
  have hl := Obj.Later.append objects (.class_ name .empty)
  refine ⟨fun k p hp => ?_, fun k n m hm => ?_, fun m c hm => ?_, fun k className methods hk n m => ?_,
    fun k className methods hk hne => ?_⟩
  · obtain ⟨hk, hp', -⟩ := h.parents k p hp
    refine ⟨hl.classAt hk, hl.classAt hp', fun hdeclaring => ?_⟩
    cases hdeclaring
    exact absurd hp'.lt (Nat.lt_irrefl _)
  · obtain ⟨hk, hm', hrest⟩ := h.owners k n m hm
    exact ⟨hl.classAt hk, hl.closureAt hm', hrest⟩
  · obtain ⟨hm', hc, hrest⟩ := h.makers m c hm
    exact ⟨hl.closureAt hm', hl.closureAt hc, hrest⟩
  · rw [List.getElem?_append] at hk
    split at hk
    · exact h.tables k className methods hk n m
    · rename_i hlt
      rw [List.getElem?_singleton] at hk
      split at hk
      · cases hk
        obtain ⟨hown, hparent⟩ := h.unborn (Nat.not_lt.mp hlt)
        exact ⟨nofun, fun hm => absurd hm (not_nearest hown hparent)⟩
      · cases hk
  · have hlt : k < objects.length := by
      have hlt := (List.getElem?_eq_some_iff.mp hk).1
      rw [List.length_append, List.length_singleton] at hlt
      refine Nat.lt_of_le_of_ne (Nat.le_of_lt_succ hlt) ?_
      rintro rfl
      exact hne rfl
    rw [List.getElem?_append_left hlt] at hk
    obtain ⟨b, hb⟩ := h.bodies k className methods hk (by rw [hidle]; exact nofun)
    exact ⟨b, hb.same rfl (fun _ _ => rfl) rfl rfl⟩

theorem Genuine.complete (h : Γ.Genuine objects) (hlast : ∀ k name methods, Γ.declaring = some k →
    objects[k]? = some (.class_ name methods) → ∃ b, Γ.Fulfils k name b) : Γ.complete.Genuine objects where
  parents k p hp := by
    obtain ⟨hk, hp', -⟩ := h.parents k p hp
    exact ⟨hk, hp', nofun⟩
  owners := h.owners
  makers := h.makers
  tables := h.tables
  bodies k name methods hk _ := by
    have hold : ∃ b, Γ.Fulfils k name b := by
      by_cases hd : Γ.declaring = some k
      · exact hlast k name methods hd hk
      · exact h.bodies k name methods hk hd
    obtain ⟨b, hb⟩ := hold
    exact ⟨b, hb.same rfl (fun _ _ => rfl) rfl rfl⟩

theorem later_class {old : Dict Nat} (hk : objects[k]? = some (.class_ name old)) (methods : Dict Nat) :
    Obj.Later objects (objects.set k (.class_ name methods)) := by
  refine .set (fun name' _ hm => ?_) ?_
  · rw [hk] at hm
    cases hm
    exact ⟨methods, rfl⟩
  · rintro p ⟨r, hr, -⟩
    rw [hk] at hr
    cases hr

theorem Genuine.inherit {own : Dict Nat} (h : Γ.Genuine objects) (hdeclaring : Γ.declaring = some k)
    (hempty : Γ.lineage.own k = []) (hnone : Γ.lineage.parent k = none)
    (hk : objects[k]? = some (.class_ name own)) {pname : Bytes} (hp : objects[p]? = some (.class_ pname methods)) :
    (Γ.inherit k p).Genuine (objects.set k (.class_ name (methods.overlay own))) := by
  have hl := later_class hk (methods.overlay own)
  refine ⟨fun k' p' hp' => ?_, fun k' n m hm => ?_, fun m c hm => ?_, fun k' className methods' hk' n m => ?_,
    fun k' className methods' hk' hne => ?_⟩
  · by_cases hne : k' = k
    · subst hne
      have hself : (Γ.lineage.after (.inherits k' p)).parent k' = some p := Function.update_self ..
      obtain rfl : p = p' := Option.some.inj (hself.symm.trans hp')
      exact ⟨hl.classAt ⟨_, _, hk⟩, hl.classAt ⟨_, _, hp⟩, fun hd => Option.some.inj (hdeclaring.symm.trans hd)⟩
    · have hother : (Γ.lineage.after (.inherits k p)).parent k' = Γ.lineage.parent k' := Function.update_of_ne hne _ _
      obtain ⟨hk', hp'', hlast⟩ := h.parents k' p' (hother.symm.trans hp')
      exact ⟨hl.classAt hk', hl.classAt hp'', hlast⟩
  · obtain ⟨hk', hm', hname, hkind, hhome⟩ := h.owners k' n m hm
    refine ⟨hl.classAt hk', hl.closureAt hm', hname, hkind, fun hsome => hhome ?_⟩
    have hne : k' ≠ k := by
      rintro rfl
      rw [show (Γ.inherit k' p).lineage.own k' = [] from hempty] at hm
      cases hm
    have hother : (Γ.lineage.after (.inherits k p)).parent k' = Γ.lineage.parent k' := Function.update_of_ne hne _ _
    rwa [← hother]
  · obtain ⟨hm', hc, hrest⟩ := h.makers m c hm
    exact ⟨hl.closureAt hm', hl.closureAt hc, hrest⟩
  · show _ ↔ (Γ.lineage.after (.inherits k p)).Nearest k' n m
    rw [Lineage.nearest_inherits hempty hnone (h.last hdeclaring)]
    by_cases hne : k' = k
    · subst hne
      rw [List.getElem?_set_self (List.getElem?_eq_some_iff.mp hk).1] at hk'
      cases hk'
      have hown : own n = none := by
        cases hn : own n with
        | none => rfl
        | some m' => exact absurd ((h.tables k' _ _ hk n m').mp hn) (not_nearest hempty hnone)
      rw [if_pos rfl, ← h.tables p pname methods hp n m, Dict.overlay, hown, Option.or_none]
    · rw [List.getElem?_set_ne (Ne.symm hne)] at hk'
      rw [if_neg hne]
      exact h.tables k' className methods' hk' n m
  · have hne' : k' ≠ k := fun he => hne (he ▸ hdeclaring)
    rw [List.getElem?_set_ne (Ne.symm hne')] at hk'
    obtain ⟨b, hb⟩ := h.bodies k' className methods' hk' hne
    exact ⟨b, hb.same rfl (fun _ _ => rfl) rfl (Function.update_of_ne hne' _ _)⟩

theorem Genuine.method {kname : Bytes} (h : Γ.Genuine objects) (hdeclaring : Γ.declaring = some k)
    (hk : objects[k]? = some (.class_ kname methods)) (hpending : Γ.pending = some m) (hm : ClosureAt objects m)
    (hname : (Γ.listing m).name = some name) (hkind : name = "init" → (Γ.listing m).kind = .initializer)
    (hhome : (Γ.lineage.parent k).isSome → Γ.home m = some k) :
    (Γ.method k name m).Genuine (objects.set k (.class_ kname (methods.set name m))) := by
  have hl := later_class hk (methods.set name m)
  have hself : (Γ.method k name m).lineage.own k = (name, m) :: Γ.lineage.own k := Function.update_self ..
  have hother {k' : Nat} (hne : k' ≠ k) : (Γ.method k name m).lineage.own k' = Γ.lineage.own k' :=
    Function.update_of_ne hne _ _
  have hkept {k' : Nat} {n : Bytes} {m' : Nat} (hm' : (n, m') ∈ Γ.lineage.own k') :
      (n, m') ∈ (Γ.method k name m).lineage.own k' := by
    by_cases hne : k' = k
    · subst hne
      rw [hself]
      exact .tail _ hm'
    · rwa [hother hne]
  have hold {k' : Nat} {n : Bytes} {m' : Nat} (hm' : (n, m') ∈ Γ.lineage.own k') :=
    h.owners k' n m' hm'
  refine ⟨fun k' p hp => ?_, fun k' n m' hm' => ?_, fun m' c hm' => ?_, fun k' className methods' hk' n m' => ?_,
    fun k' className methods' hk' hne => ?_⟩
  · obtain ⟨hk', hp', hlast⟩ := h.parents k' p hp
    exact ⟨hl.classAt hk', hl.classAt hp', hlast⟩
  · have hcases : (k' = k ∧ n = name ∧ m' = m) ∨ (n, m') ∈ Γ.lineage.own k' := by
      by_cases hne : k' = k
      · subst hne
        rw [hself] at hm'
        rcases List.mem_cons.mp hm' with he | hm'
        · cases he
          exact .inl ⟨rfl, rfl, rfl⟩
        · exact .inr hm'
      · exact .inr (hother hne ▸ hm')
    rcases hcases with ⟨rfl, rfl, rfl⟩ | hm'
    · exact ⟨hl.classAt ⟨_, _, hk⟩, hl.closureAt hm, hname, hkind, hhome⟩
    · obtain ⟨hk', hm'', hrest⟩ := h.owners k' n m' hm'
      exact ⟨hl.classAt hk', hl.closureAt hm'', hrest⟩
  · obtain ⟨hm'', hc, hrest⟩ := h.makers m' c hm'
    refine ⟨hl.closureAt hm'', hl.closureAt hc, ?_⟩
    rcases hrest with hrest | ⟨k', n, hn⟩ | hp
    · exact .inl hrest
    · exact .inr (.inl ⟨k', n, hkept hn⟩)
    · rw [hpending] at hp
      cases hp
      refine .inr (.inl ⟨k, name, ?_⟩)
      rw [hself]
      exact .head _
  · show _ ↔ (Γ.lineage.after (.declares k name m)).Nearest k' n m'
    rw [Lineage.nearest_declares (h.last hdeclaring)]
    by_cases hne : k' = k
    · subst hne
      rw [List.getElem?_set_self (List.getElem?_eq_some_iff.mp hk).1] at hk'
      cases hk'
      by_cases hn : n = name
      · subst hn
        rw [if_pos ⟨rfl, rfl⟩, Dict.set, if_pos rfl, Option.some.injEq, eq_comm]
      · rw [if_neg fun he => hn he.2, Dict.set, if_neg hn]
        exact h.tables k' _ methods hk n m'
    · rw [List.getElem?_set_ne (Ne.symm hne)] at hk'
      rw [if_neg fun he => hne he.1]
      exact h.tables k' className methods' hk' n m'
  · have hne' : k' ≠ k := fun he => hne (he ▸ hdeclaring)
    rw [List.getElem?_set_ne (Ne.symm hne')] at hk'
    obtain ⟨b, hb⟩ := h.bodies k' className methods' hk' hne
    exact ⟨b, hb.same rfl (fun _ _ => rfl) (hother hne') rfl⟩

theorem Underway.method {d : Lox.Underway} {e : Lambda Stmt} {todo : List (Lambda Stmt)} {globals : Dict Val}
    (h : Γ.Underway objects globals { d with pending := true } k)
    (hk : objects[k]? = some (.class_ d.body.name methods)) (hrenders : (Γ.listing m).Renders e)
    (hfresh : d.stage ≠ .fresh) (hidle : d.pending = false) (htodo : d.todo = e :: todo) :
    (Γ.method k e.name m).Underway (objects.set k (.class_ d.body.name (methods.set e.name m))) globals
      { d with todo } k where
  class_ := h.class_
  named := ⟨_, List.getElem?_set_self (List.getElem?_eq_some_iff.mp hk).1⟩
  listed := h.listed
  made := by
    obtain ⟨made, hmethods, hmade⟩ := h.made
    have hself : (Γ.method k e.name m).lineage.own k = (e.name, m) :: Γ.lineage.own k := Function.update_self ..
    refine ⟨made ++ [e], ?_, ?_⟩
    · rw [List.append_assoc, List.singleton_append, ← htodo]
      exact hmethods
    · rw [hself, List.reverse_cons]
      exact List.rel_append (gives_same hmade fun _ _ => rfl) (.cons ⟨rfl, hrenders⟩ .nil)
  global := h.global
  fresh hs := absurd hs hfresh
  heir := h.heir
  idle _ := rfl
  pending hp := by
    rw [show d.pending = true from hp] at hidle
    cases hidle

theorem Underway.fulfils {d : Lox.Underway} {globals : Dict Val} (h : Γ.Underway objects globals d k)
    (htodo : d.todo = []) (hheir : d.stage = .heir ↔ d.body.superclass.isSome)
    (hk : objects[k]? = some (.class_ name methods)) : Γ.Fulfils k name d.body where
  listed := h.listed
  name := by
    obtain ⟨methods', hm⟩ := h.named
    rw [hk] at hm
    cases hm
    rfl
  superclass := Bool.eq_iff_iff.mpr (h.heir.symm.trans hheir)
  methods := by
    obtain ⟨made, hmethods, hmade⟩ := h.made
    rw [htodo, List.append_nil] at hmethods
    rwa [hmethods]

end Facts

namespace Ideal.Running

open IdealM

variable {Γ Γ' : Facts} {i : Ideal} {f : Activation} {rest : List Activation} {p : Prototype} {a : Sheet} {s : Shape}
  {slots below : List Slot} {known known' : Option Underway} {k j : Nat} {name : Bytes} {c d : Content} {v : Val}
  {x : Slot}

theorem know (h : i.Running Γ f rest p a ⟨⟨c, false⟩ :: slots, known⟩ below) (hv : i.stack.reverse[0]? = some v)
    (hd : Γ.Holds f.closure d v) : i.Running Γ f rest p a ⟨⟨d, false⟩ :: slots, known⟩ below := by
  have hlow {n : Nat} {y : Slot} (hy : (⟨c, false⟩ :: slots ++ below).reverse[n]? = some y) (hheld : y.held = true) :
      (⟨d, false⟩ :: slots ++ below).reverse[n]? = some y := by
    have hy' : ([(⟨c, false⟩ : Slot)] ++ (slots ++ below)).reverse[n]? = some y := hy
    obtain ⟨hn, hslot⟩ := Typed.below_of_held (by simp) hy' hheld
    rw [List.cons_append, List.reverse_cons, List.getElem?_append_left (by rwa [List.length_reverse])]
    exact hslot
  have hvalues := h.typed.values
  refine { h with typed := { h.typed with values := ?_, firsts := ?_, held := fun n u hu => ?_ } }
  · generalize i.stack.reverse = vs at hvalues hv
    cases hvalues with
    | cons _ hvs =>
      cases hv
      exact .cons hd hvs
  · exact h.typed.firsts.imp fun f w hf => ⟨hf.1, hlow hf.2 rfl⟩
  · obtain ⟨y, hy, hheld, hrest⟩ := h.typed.held n u hu
    exact ⟨y, hlow hy hheld, hheld, hrest⟩

theorem makeClass {body : ClassBody} (h : i.Running Γ f rest p a ⟨slots, none⟩ below) (hcalm : ∀ x ∈ slots, x.Calm)
    (hk : (Γ.listing f.closure).signature.Names k body.name) (hlisted : body ∈ (Γ.listing f.closure).classes)
    (hlt : k < 256)
    (hb : p.Ahead f.ip (Operand.byte k).bytes) : Safe i IdealM.makeClass fun _ i' =>
      i'.Running (Γ.declare i.objects.length) { f with ip := f.ip + 1 } rest p a
        ⟨⟨.own, false⟩ :: slots, some { stage := .fresh, body, todo := body.methods }⟩ below := by
  obtain ⟨hread, hrunning⟩ := h.readName hk hlt hb
  have hgenuine := hrunning.typed.genuine.declare h.declares.1 body.name
  obtain ⟨r, hr, -⟩ := h.knows.closure
  obtain ⟨-, -, hclasses, -⟩ := h.typed.objects _ _ hr
  obtain ⟨hown, hparent⟩ := h.typed.genuine.unborn (Nat.le_refl _)
  have hdeclares : (Γ.declare i.objects.length).Declares (i.objects ++ [Obj.class_ body.name .empty])
      (i.moved (f.ip + 1)).globals (some { stage := .fresh, body, todo := body.methods }) := by
    refine ⟨i.objects.length, rfl, ⟨.empty, by simp⟩, hclasses hlisted, ⟨[], rfl, ?_⟩, nofun, fun _ => hown, ?_,
      fun _ => h.declares.2, nofun⟩
    · rw [show (Γ.declare i.objects.length).lineage.own i.objects.length = [] from hown]
      exact .nil
    show _ ↔ (Γ.lineage.parent i.objects.length).isSome
    rw [hparent]
    exact ⟨nofun, nofun⟩
  have hcreated : ({ i.moved (f.ip + 1) with objects := i.objects ++ [Obj.class_ body.name .empty] } : Ideal).Running
      (Γ.declare i.objects.length) { f with ip := f.ip + 1 } rest p a
        ⟨slots, some { stage := .fresh, body, todo := body.methods }⟩ below := by
    refine hrunning.reobject ⟨fun _ _ => rfl, fun _ _ => rfl, fun _ _ => rfl, fun _ _ => rfl, fun _ _ => id,
      fun _ _ => Iff.rfl, rfl⟩ (.append _ _) (fun b o hb => ?_) (fun x hx v _ => Facts.holds_calm (hcalm x hx)) rfl
          hgenuine
      hdeclares
    rw [List.getElem?_append] at hb
    split at hb
    · exact .inl hb
    · rw [List.getElem?_singleton] at hb
      split at hb
      · cases hb
        exact .inr trivial
      · cases hb
  exact .step hread (.step rfl (hcreated.safe_push (x := ⟨.own, false⟩) ⟨_, rfl, rfl⟩ fun _ => id))

theorem methodsOr (h : i.Running Γ f rest p a s below) (q : RuntimeProblem) (v : Val) :
    Safe i (IdealM.methodsOr q v) fun methods i' => i' = i ∧ ∃ k name, v = .object k ∧
      i.objects[k]? = some (.class_ name methods) := by
  unfold IdealM.methodsOr
  split
  · refine .step rfl ?_
    split
    · rename_i hm
      exact ⟨rfl, _, _, rfl, hm⟩
    · exact h.raise _
  · exact h.raise _

theorem inherit {name : Option Bytes} {body : ClassBody} {todo : List (Lambda Stmt)} (h : i.Running Γ f rest p a
      ⟨⟨.own, false⟩ :: ⟨c, false⟩ :: slots, some { global := name, stage := .fresh, body, todo }⟩ below)
    (hslots : ∀ x ∈ slots, x.Calm ∨ x.content = .own) : Safe i IdealM.inherit fun _ i' => ∃ k k',
      i.stack.reverse[0]? = some (.object k) ∧ i.stack.reverse[1]? = some (.object k') ∧
      i'.Running (Γ.inherit k k') f rest p a
        ⟨⟨.superclass, false⟩ :: slots, some { global := name, stage := .heir, body, todo }⟩ below := by
  obtain ⟨v, hpeek, hv, k, rfl, hclass⟩ := h.peek (d := 0) rfl
  obtain ⟨w, hpeek', hw, -⟩ := h.peek (d := 1) rfl
  obtain ⟨k', hd⟩ := h.declares
  obtain rfl : k' = k := Option.some.inj (hd.class_.symm.trans hclass)
  unfold IdealM.inherit
  refine .step hpeek' (.bind (h.methodsOr _ w) ?_)
  rintro methods i' ⟨rfl, p', pname, rfl, hp⟩
  obtain ⟨own, hk⟩ := hd.named
  refine .step hpeek (.step (asClass_eq ⟨body.name, own, hk⟩) (.step (classAt_eq hk) (.step rfl ?_)))
  have hempty := hd.fresh rfl
  have hnone : Γ.lineage.parent k' = none := by
    cases hparent : Γ.lineage.parent k' with
    | none => rfl
    | some q =>
      have hheir := hd.heir.mpr (by rw [hparent]; rfl)
      cases hheir
  have hgenuine := h.typed.genuine.inherit hclass hempty hnone hk hp
  have hl := Facts.later_class hk (methods.overlay own)
  have hself : (Γ.inherit k' p').lineage.parent k' = some p' := Function.update_self ..
  have hset : ({ i' with objects := i'.objects.set k' (.class_ body.name (methods.overlay own)) } : Ideal).Running
      (Γ.inherit k' p') f rest p a
        ⟨⟨.any, false⟩ :: ⟨.any, false⟩ :: slots, some { global := name, stage := .heir, body, todo }⟩ below := by
    have hplain : i'.Running Γ f rest p a
        ⟨⟨.any, false⟩ :: ⟨.any, false⟩ :: slots, some { global := name, stage := .fresh, body, todo }⟩ below :=
            h.retype
      (.cons (Slot.may_of_free rfl _) (.cons (Slot.may_of_free rfl _) (forall₂_refl Slot.May.refl _)))
    refine hplain.reobject ⟨fun _ _ => rfl, fun _ _ => rfl, fun _ _ => rfl, fun _ _ => rfl, fun q r hq => ?_,
      fun _ _ => Iff.rfl, rfl⟩ hl (fun b o hb => ?_) (fun x hx v hholds => ?_) rfl hgenuine ?_
    · have hne : q ≠ k' := by
        rintro rfl
        rw [hnone] at hq
        cases hq
      exact (Function.update_of_ne hne _ _).trans hq
    · by_cases hne : k' = b
      · subst hne
        rw [List.getElem?_set_self (List.getElem?_eq_some_iff.mp hk).1] at hb
        cases hb
        exact .inr trivial
      · exact .inl (by rwa [List.getElem?_set_ne hne] at hb)
    · rcases List.mem_cons.mp hx with rfl | hx
      · trivial
      rcases List.mem_cons.mp hx with rfl | hx
      · trivial
      rcases hslots x hx with hx | hx
      · exact Facts.holds_calm hx
      · rw [hx] at hholds ⊢
        exact hholds
    · refine ⟨k', hclass, ⟨_, List.getElem?_set_self (List.getElem?_eq_some_iff.mp hk).1⟩, hd.listed, hd.made,
          hd.global,
        nofun, ?_, hd.idle, nofun⟩
      rw [hself]
      exact ⟨fun _ => rfl, fun _ => rfl⟩
  obtain ⟨v, hpop, -, -, hpopped⟩ := hset.pop rfl
  refine .step hpop ⟨k', p', hv, hw, hpopped.know (v := .object p') ?_ ⟨p', rfl, fun q hq => ?_⟩⟩
  · show i'.stack.dropLast.reverse[0]? = _
    rw [reverse_dropLast]
    exact hw
  · obtain rfl : k' = q := Option.some.inj (hclass.symm.trans hq)
    exact hself

theorem defineMethod {d : Underway} {g : Listing Item} {held : Bool} {e : Lambda Stmt} {todo : List (Lambda Stmt)}
    (h : i.Running Γ f rest p a
      ⟨⟨.closure j, false⟩ :: ⟨.own, held⟩ :: slots, some { d with pending := true }⟩ below)
    (hk : (Γ.listing f.closure).signature.Names k e.name) (hlt : k < 256) (hb : p.Ahead f.ip (Operand.byte k).bytes)
    (hj : (Γ.listing f.closure).constants[j]? = some (.function g)) (hrenders : g.Renders e)
    (hkind : e.name = "init" → g.kind = .initializer) (hfresh : d.stage ≠ .fresh) (hidle : d.pending = false)
    (htodo : d.todo = e :: todo) (hslots : ∀ x ∈ slots, ∀ j', x.content ≠ .closure j') : Safe i IdealM.defineMethod
    fun _ i' => ∃ k' m,
      i.stack.reverse[0]? = some (.object m) ∧ i.stack.reverse[1]? = some (.object k') ∧
      i'.Running (Γ.method k' e.name m) { f with ip := f.ip + 1 } rest p a
        ⟨⟨.own, held⟩ :: slots, some { d with todo }⟩ below := by
  obtain ⟨hread, hrunning⟩ := h.readName hk hlt hb
  obtain ⟨v, hpeek, hv, m, g', rfl, hpending, hg', hlisting⟩ := hrunning.peek (d := 0) rfl
  obtain ⟨w, hpeek', hw, k', rfl, hclass⟩ := hrunning.peek (d := 1) rfl
  obtain ⟨k'', hd⟩ := hrunning.declares
  obtain rfl : k'' = k' := Option.some.inj (hd.class_.symm.trans hclass)
  obtain rfl : g = g' := by
    have := hj.symm.trans hg'
    cases this
    rfl
  obtain ⟨m', hm', ⟨q, r, hr, hq⟩, hhome⟩ := hd.pending rfl
  obtain rfl : m' = m := Option.some.inj (hm'.symm.trans hpending)
  obtain ⟨methods, hk'⟩ := hd.named
  have hlt'' : k'' < i.objects.length := (List.getElem?_eq_some_iff.mp hk').1
  unfold IdealM.defineMethod
  refine .step hread (.step hpeek ?_)
  refine .step (closureAt_eq hr) (.step hpeek' (.step (asClass_eq ⟨d.body.name, methods, hk'⟩) ?_))
  refine .step (classAt_eq hk') (.step rfl ?_)
  have hgenuine := hrunning.typed.genuine.method hclass hk' hpending ⟨q, r, hr, hq⟩ (hlisting ▸ hrenders.1)
    (fun hn => hlisting ▸ hkind hn) hhome
  have hl := Facts.later_class hk' (methods.set e.name m')
  have hset : ({ i.moved (f.ip + 1) with
      objects := i.objects.set k'' (.class_ d.body.name (methods.set e.name m')) } : Ideal).Running
        (Γ.method k'' e.name m') { f with ip := f.ip + 1 } rest p a
          ⟨⟨.any, false⟩ :: ⟨.own, held⟩ :: slots, some { d with todo }⟩ below := by
    have hplain : (i.moved (f.ip + 1)).Running Γ { f with ip := f.ip + 1 } rest p a
        ⟨⟨.any, false⟩ :: ⟨.own, held⟩ :: slots, some { d with pending := true }⟩ below := hrunning.retype
      (.cons (Slot.may_of_free rfl _) (forall₂_refl Slot.May.refl _))
    refine hplain.reobject ⟨fun _ _ => rfl, fun _ _ => rfl, fun _ _ => rfl, fun _ _ => rfl, fun _ _ => id,
      fun _ _ => Iff.rfl, rfl⟩ hl (fun b o hb => ?_) (fun x hx v hholds => ?_) rfl hgenuine ?_
    · by_cases hne : k'' = b
      · subst hne
        rw [List.getElem?_set_self hlt''] at hb
        cases hb
        exact .inr trivial
      · exact .inl (by rwa [List.getElem?_set_ne hne] at hb)
    · rcases List.mem_cons.mp hx with rfl | hx
      · trivial
      rcases List.mem_cons.mp hx with rfl | hx
      · exact hholds
      have hother := hslots x hx
      revert hholds hother
      cases x.content with
      | closure j' => exact fun _ hother => absurd rfl (hother j')
      | _ => exact fun hholds _ => hholds
    · exact ⟨k'', hd.method hk' (hlisting ▸ hrenders) hfresh hidle htodo⟩
  obtain ⟨v, hpop, -, -, hpopped⟩ := hset.pop rfl
  exact .step hpop ⟨k'', m', hv, hw, hpopped⟩

theorem complete {d : Underway} (h : i.Running Γ f rest p a ⟨⟨.own, false⟩ :: slots, some d⟩ below)
    (hidle : d.pending = false) (htodo : d.todo = []) (hheir : d.stage = .heir ↔ d.body.superclass.isSome)
    (hslots : ∀ x ∈ slots, x.content ≠ .own) :
    Safe i (execute .pop) fun _ i' => i'.Running Γ.complete f rest p a ⟨slots, none⟩ below := by
  obtain ⟨v, hpop, -, -, hpopped⟩ := h.pop rfl
  obtain ⟨k, hd⟩ := hpopped.declares
  have hpending := hd.idle hidle
  refine .step hpop (hpopped.reobject ⟨fun _ _ => rfl, fun _ _ => rfl, fun _ _ => rfl,
    fun _ _ => rfl, fun _ _ => id, fun _ _ => Iff.rfl, rfl⟩ (.refl _) (fun _ _ => .inl) (fun x hx v hholds => ?_) rfl
    (hpopped.typed.genuine.complete fun k' name methods hk' hm => ?_) ⟨rfl, hpending⟩)
  rotate_left
  · obtain rfl : k = k' := Option.some.inj (hd.class_.symm.trans hk')
    exact ⟨d.body, hd.fulfils htodo hheir hm⟩
  have hother := hslots x hx
  revert hholds hother
  cases x.content with
  | own => exact fun _ hother => absurd rfl hother
  | closure j' =>
    rintro ⟨m, g, -, hm, -⟩
    rw [hpending] at hm
    cases hm
  | superclass =>
    rintro ⟨q, rfl, -⟩ -
    exact ⟨q, rfl, nofun⟩
  | _ => exact fun hholds _ => hholds

end Ideal.Running

end Lox
