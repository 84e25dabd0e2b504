import Lox.Proofs.Source.Generate
import Lox.Proofs.Verify.Shape

/-!
Code in which the shapes of the stack fit together: wherever control goes, the slots are as they are
expected there.
-/

namespace Lox

theorem Goes.shift {γ : Signature} {s : Shape} {l : Line} {offset base : Nat} {next : List (Nat × Shape)}
    (h : Goes γ s offset l next) : Goes γ s (base + offset) l (next.map fun r => (base + r.1, r.2)) := by
  cases h with
  | mark => exact .mark
  | effect he =>
    simp only [List.map_cons, List.map_nil, ← Nat.add_assoc base]
    exact .effect he
  | jump =>
    simp only [List.map_cons, List.map_nil, ← Nat.add_assoc]
    exact .jump
  | jumpIfFalse hs =>
    simp only [List.map_cons, List.map_nil, ← Nat.add_assoc]
    exact .jumpIfFalse hs
  | loop hd =>
    simp only [List.map_cons, List.map_nil]
    rw [← Nat.add_sub_assoc hd, ← Nat.add_assoc]
    exact .loop (by omega)
  | return_ hs hc hslots => exact .return_ hs hc hslots

namespace Sheet

def Flow (γ : Signature) (at_ : Nat → Option Shape) : Nat → Sheet → Prop
  | _, [] => True
  | offset, (s, l) :: a =>
    (∃ next, Goes γ s offset l next ∧ ∀ r ∈ next, Admits at_ r.1 r.2) ∧ Flow γ at_ (offset + l.size) a

variable {γ : Signature} {at_ : Nat → Option Shape} {a b : Sheet} {e : Option Shape} {s t : Shape}

theorem flow_append {offset : Nat} :
    Flow γ at_ offset (a ++ b) ↔ Flow γ at_ offset a ∧ Flow γ at_ (offset + a.size) b := by
  induction a generalizing offset with
  | nil => simp [Flow]
  | cons r a ih =>
    obtain ⟨s, l⟩ := r
    rw [List.cons_append, Flow, ih, Flow, size_cons, Nat.add_assoc, and_assoc]

theorem Flow.shift {at' : Nat → Option Shape} {offset base : Nat} (h : Flow γ at_ offset a)
    (hat : ∀ n r, Admits at_ n r → Admits at' (base + n) r) : Flow γ at' (base + offset) a := by
  induction a generalizing offset with
  | nil => trivial
  | cons r a ih =>
    obtain ⟨s, l⟩ := r
    obtain ⟨⟨next, hgoes, hnext⟩, htail⟩ := h
    refine ⟨⟨_, hgoes.shift, fun r hr => ?_⟩, ?_⟩
    · obtain ⟨r', hr', rfl⟩ := List.mem_map.mp hr
      exact hat _ _ (hnext r' hr')
    · rw [Nat.add_assoc]
      exact ih htail

def Enters (a : Sheet) (e : Option Shape) (s : Shape) : Prop :=
  Admits (shapeAt e a) 0 s

structure Fits (γ : Signature) (a : Sheet) (s : Shape) (e : Option Shape) : Prop where
  enters : a.Enters e s
  flow : Flow γ (shapeAt e a) 0 a

theorem enters_instr {op : Opcode} {operand : Operand} (h : s.Within t) :
    Enters ((t, .instr op operand) :: a) e s :=
  ⟨t, rfl, h⟩

theorem enters_nil (h : s.Within t) : Enters [] (some t) s :=
  ⟨t, rfl, h⟩

theorem Enters.admits (before : Sheet) (h : a.Enters e s) :
    Admits (shapeAt e (before ++ a)) before.size s := by
  obtain ⟨t, ht, hs⟩ := h
  exact ⟨t, (shapeAt_append_right 0).trans ht, hs⟩

theorem admits_within (before : Sheet) (hb : b.Enters e t) {n : Nat} {r : Shape}
    (h : Admits (shapeAt (some t) a) n r) :
    Admits (shapeAt e (before ++ (a ++ b))) (before.size + n) r := by
  obtain ⟨u, hu, hr⟩ := h
  obtain ⟨v, hv, ht⟩ := hb
  rw [Admits, shapeAt_append_right]
  rcases Nat.lt_trichotomy n a.size with hlt | rfl | hgt
  · rw [shapeAt_append_left (Nat.le_of_lt hlt)]
    exact ⟨u, (shapeAt_of_lt_size hlt).trans hu, hr⟩
  · rw [shapeAt_size] at hu
    cases hu
    exact ⟨v, (shapeAt_append_right 0).trans hv, hr.trans ht⟩
  · rw [shapeAt_of_size_lt hgt] at hu
    cases hu

theorem Fits.within (before : Sheet) (h : a.Fits γ s (some t)) (hb : b.Enters e t) :
    Flow γ (shapeAt e (before ++ (a ++ b))) before.size a :=
  h.flow.shift fun _ _ => admits_within before hb

theorem Fits.admits (before : Sheet) (h : a.Fits γ s (some t)) (hb : b.Enters e t) :
    Admits (shapeAt e (before ++ (a ++ b))) before.size s :=
  admits_within before hb h.enters

theorem Fits.enters_append (h : a.Fits γ s (some t)) (hb : b.Enters e t) : (a ++ b).Enters e s :=
  h.admits [] hb

theorem Fits.append (ha : a.Fits γ s (some t)) (hb : b.Fits γ t e) : (a ++ b).Fits γ s e := by
  refine ⟨ha.enters_append hb.enters, flow_append.mpr ⟨ha.within [] hb.enters, ?_⟩⟩
  rw [Nat.zero_add]
  exact hb.flow.shift fun n r ⟨u, hu, hr⟩ => ⟨u, (shapeAt_append_right n).trans hu, hr⟩

theorem flow_single {l : Line} {offset target : Nat} (h : Goes γ s offset l [(target, t)])
    (ht : Admits at_ target t) : Flow γ at_ offset [(s, l)] :=
  ⟨⟨_, h, fun _ hr => List.mem_singleton.mp hr ▸ ht⟩, trivial⟩

theorem flow_jumpIfFalse {offset distance : Nat} (hs : s.slots ≠ []) (hnext : Admits at_ (offset + 3) s)
    (hfar : Admits at_ (offset + 3 + distance) s) :
    Flow γ at_ offset [(s, .instr .jumpIfFalse (.short distance))] := by
  refine ⟨⟨_, .jumpIfFalse hs, fun r hr => ?_⟩, trivial⟩
  rcases List.mem_cons.mp hr with rfl | hr
  · exact hnext
  · exact List.mem_singleton.mp hr ▸ hfar

end Sheet

def Flows (γ : Signature) (code : List Line) (s : Shape) (e : Option Shape) : Prop :=
  ∃ a : Sheet, a.lines = code ∧ a.Fits γ s e

namespace Flows

open Sheet

variable {γ : Signature} {code a b : List Line} {e : Option Shape} {s t u : Shape}

theorem nil (h : s.Within t) : Flows γ [] s (some t) :=
  ⟨[], rfl, enters_nil h, trivial⟩

theorem append (ha : Flows γ a s (some t)) (hb : Flows γ b t e) : Flows γ (a ++ b) s e := by
  obtain ⟨x, rfl, hx⟩ := ha
  obtain ⟨y, rfl, hy⟩ := hb
  exact ⟨x ++ y, lines_append x y, hx.append hy⟩

theorem enter (h : Flows γ code t e) (hs : s.Within t) : Flows γ code s e := by
  obtain ⟨x, hx, hfits⟩ := h
  exact ⟨x, hx, hfits.enters.within hs, hfits.flow⟩

theorem leave (h : Flows γ code s (some t)) (ht : t.Within u) : Flows γ code s (some u) := by
  simpa using h.append (nil ht)

theorem mark (s : Shape) : Flows γ [.mark s.slots.length] s (some s) :=
  ⟨[(s, _)], rfl, ⟨s, rfl, .refl s⟩, flow_single .mark ⟨s, rfl, .refl s⟩⟩

theorem effect {op : Opcode} {operand : Operand} (h : Effect γ s op operand t) :
    Flows γ [.instr op operand] s (some t) := by
  refine ⟨[(s, _)], rfl, enters_instr (.refl s), flow_single (.effect h) ⟨t, ?_, .refl t⟩⟩
  rw [Nat.zero_add]
  exact shapeAt_size

theorem return_ {c : Content} {x : Slot} {slots : List Slot} (hc : γ.kind = .initializer → c = .receiver)
    (hslots : γ.kind = .script → slots = []) :
    Flows γ [.instr .return_ .none] ⟨⟨c, false⟩ :: x :: slots, none⟩ e :=
  ⟨[(_, _)], rfl, enters_instr (.refl _), ⟨[], .return_ rfl hc hslots, nofun⟩, trivial⟩

theorem skip (hs : s.slots ≠ []) (ha : Flows γ a s (some t)) (ht : s.Within t) :
    Flows γ (.instr .jumpIfFalse (.short (Code.size a)) :: a) s (some t) := by
  obtain ⟨x, rfl, hx⟩ := ha
  let first : Sheet := [(s, .instr .jumpIfFalse (.short x.size))]
  refine ⟨first ++ (x ++ []), by simp [first, lines, size], enters_instr (.refl s),
    flow_append.mpr ⟨flow_jumpIfFalse hs ?_ ?_, ?_⟩⟩
  · exact hx.admits first (enters_nil (.refl t))
  · have := (enters_nil ht).admits (first ++ x)
    rwa [List.append_assoc, size_append] at this
  · rw [List.append_nil, Nat.zero_add]
    have := hx.within first (enters_nil (.refl t))
    rwa [List.append_nil] at this

theorem branch (hs : s.slots ≠ []) (ha : Flows γ a s (some t)) (hb : Flows γ b s (some t)) :
    Flows γ (.instr .jumpIfFalse (.short (Code.size a + 3)) :: a ++
      .instr .jump (.short (Code.size b)) :: b) s (some t) := by
  obtain ⟨x, rfl, hx⟩ := ha
  obtain ⟨y, rfl, hy⟩ := hb
  let first : Sheet := [(s, .instr .jumpIfFalse (.short (x.size + 3)))]
  let past : Sheet := [(t, .instr .jump (.short y.size))]
  have hpast : (past ++ y).Enters (some t) t := enters_instr (.refl t)
  have hfirst : first.size = 3 := rfl
  have hsize : past.size = 3 := rfl
  refine ⟨first ++ (x ++ (past ++ y)), by simp [first, past, lines, size], enters_instr (.refl s),
    flow_append.mpr ⟨flow_jumpIfFalse hs ?_ ?_, flow_append.mpr ⟨?_, flow_append.mpr
      ⟨flow_single .jump ?_, ?_⟩⟩⟩⟩
  · exact hx.admits first hpast
  · have := hy.enters.admits (first ++ (x ++ past))
    simpa [hfirst, hsize] using this
  · rw [Nat.zero_add]
    exact hx.within first hpast
  · have := (enters_nil (.refl t)).admits (first ++ (x ++ (past ++ y)))
    simpa [hfirst, hsize, Nat.add_assoc, Nat.add_left_comm x.size] using this
  · have := hy.within (first ++ (x ++ past)) (enters_nil (.refl t))
    simpa [hfirst, hsize, Nat.add_assoc] using this

theorem again {increment : Option (List Line)} {body : List Line} {slots : List Slot} (before : Nat)
    (hi : ∀ a ∈ increment, Flows γ a ⟨slots, none⟩ (some ⟨{} :: slots, none⟩))
    (hb : Flows γ body ⟨slots, none⟩ (some ⟨slots, none⟩)) : ∃ m : Sheet,
      m.lines = incrementCode increment before ++ body ++
        [.instr .loop (.short (backSize before increment + Code.size body + 3))] ∧
      ∀ (after : Sheet) e, (m ++ after).Enters e ⟨slots, none⟩ ∧ ∀ c : Sheet, c.size = before →
        Admits (shapeAt e (c ++ (m ++ after))) 0 ⟨slots, none⟩ →
        Flow γ (shapeAt e (c ++ (m ++ after))) c.size m := by
  obtain ⟨y, rfl, hy⟩ := hb
  let s : Shape := ⟨slots, none⟩
  let top : Shape := ⟨{} :: slots, none⟩
  cases increment with
  | none =>
    let back : Sheet := [(s, .instr .loop (.short (before + y.size + 3)))]
    refine ⟨y ++ back, by simp [back, lines, size, incrementCode, backSize], fun after e => ?_⟩
    have hback : (back ++ after).Enters e s := enters_instr (.refl s)
    refine ⟨?_, fun c hc hstart => ?_⟩
    · rw [List.append_assoc]
      exact hy.enters_append hback
    · rw [List.append_assoc] at hstart ⊢
      refine flow_append.mpr ⟨hy.within c hback, flow_single (.loop (by omega)) ?_⟩
      rwa [show c.size + y.size + 3 - (before + y.size + 3) = 0 from by omega]
  | some a =>
    obtain ⟨x, rfl, hx⟩ := hi a rfl
    let past : Sheet := [(s, .instr .jump (.short (x.size + 4)))]
    let drop : Sheet := [(top, .instr .pop .none)]
    let first : Sheet := [(s, .instr .loop (.short (before + x.size + 7)))]
    let back : Sheet := [(s, .instr .loop (.short (x.size + 4 + y.size + 3)))]
    have hpast : past.size = 3 := rfl
    have hdrop : drop.size = 1 := rfl
    have hfirst : first.size = 3 := rfl
    refine ⟨past ++ (x ++ (drop ++ (first ++ (y ++ back)))), ?_, fun after e =>
      ⟨enters_instr (.refl s), fun c hc hstart => ?_⟩⟩
    · simp [past, drop, first, back, lines, size, incrementCode, backSize]
    · let rest : Sheet := back ++ after
      have hrest : rest.Enters e s := enters_instr (.refl s)
      have hbody := hy.enters_append hrest
      have hdropping : (drop ++ (first ++ (y ++ rest))).Enters e top := enters_instr (.refl top)
      have hwhole : c ++ (past ++ (x ++ (drop ++ (first ++ (y ++ back)))) ++ after) =
          c ++ (past ++ (x ++ (drop ++ (first ++ (y ++ rest))))) := by simp [rest]
      rw [hwhole] at hstart ⊢
      refine flow_append.mpr ⟨flow_single .jump ?_, flow_append.mpr ⟨?_, flow_append.mpr
        ⟨flow_single (.effect .pop) ?_, flow_append.mpr ⟨flow_single (.loop (by omega)) ?_,
          flow_append.mpr ⟨?_, flow_single (.loop (by omega)) ?_⟩⟩⟩⟩⟩
      · have := hbody.admits (c ++ (past ++ (x ++ (drop ++ first))))
        simpa [hpast, hdrop, hfirst, Nat.add_assoc] using this
      · have := hx.within (c ++ past) hdropping
        simpa using this
      · have hgo : (first ++ (y ++ rest)).Enters e s := enters_instr (.refl s)
        have := hgo.admits (c ++ (past ++ (x ++ drop)))
        simpa [hpast, hdrop, Operand.size, Nat.add_assoc] using this
      · rwa [show c.size + past.size + x.size + drop.size + 3 - (before + x.size + 7) = 0 from by omega]
      · have := hy.within (c ++ (past ++ (x ++ (drop ++ first)))) hrest
        simpa [Nat.add_assoc] using this
      · have := hx.admits (c ++ past) hdropping
        rw [show c.size + past.size + x.size + drop.size + first.size + y.size + 3 -
          (x.size + 4 + y.size + 3) = c.size + past.size from by omega]
        simpa using this

theorem loop {condition increment : Option (List Line)} {body : List Line} {slots : List Slot}
    (hc : ∀ a ∈ condition, Flows γ a ⟨slots, none⟩ (some ⟨{} :: slots, none⟩))
    (hi : ∀ a ∈ increment, Flows γ a ⟨slots, none⟩ (some ⟨{} :: slots, none⟩))
    (hb : Flows γ body ⟨slots, none⟩ (some ⟨slots, none⟩)) :
    Flows γ (loopCode condition increment body) ⟨slots, none⟩ (some ⟨slots, none⟩) := by
  let s : Shape := ⟨slots, none⟩
  let top : Shape := ⟨{} :: slots, none⟩
  obtain ⟨m, hm, hagain⟩ := again (conditionSize condition) hi hb
  have hsize : m.size = Code.size (incrementCode increment (conditionSize condition)) + Code.size body + 3 := by
    rw [size, hm]
    simp [Line.size, Operand.size, Nat.add_assoc]
  cases condition with
  | none =>
    obtain ⟨henters, hflow⟩ := hagain [] (some s)
    refine ⟨m, by simpa [loopCode, conditionCode] using hm, ?_⟩
    have := hflow [] rfl henters
    rw [List.append_nil] at henters this
    exact ⟨henters, this⟩
  | some a =>
    obtain ⟨x, rfl, hx⟩ := hc a rfl
    let test : Sheet := [(top, .instr .jumpIfFalse (.short (1 + m.size)))]
    let drop : Sheet := [(top, .instr .pop .none)]
    have htest : test.size = 3 := rfl
    have hdrop : drop.size = 1 := rfl
    obtain ⟨henters, hflow⟩ := hagain drop (some s)
    have htesting : (test ++ (drop ++ (m ++ drop))).Enters (some s) top := enters_instr (.refl top)
    refine ⟨x ++ (test ++ (drop ++ (m ++ drop))), ?_, hx.enters_append htesting, ?_⟩
    · simp only [lines_append, hm]
      simp [loopCode, conditionCode, test, drop, lines, hsize]
    · refine flow_append.mpr ⟨hx.within [] htesting, flow_append.mpr
        ⟨flow_jumpIfFalse (by rintro ⟨⟩) ?_ ?_, flow_append.mpr ⟨flow_single (.effect .pop) ?_, flow_append.mpr
          ⟨?_, flow_single (.effect .pop) ?_⟩⟩⟩⟩
      · have hgo : (drop ++ (m ++ drop)).Enters (some s) top := enters_instr (.refl top)
        have := hgo.admits (x ++ test)
        simpa [htest] using this
      · have hgo : drop.Enters (some s) top := enters_instr (.refl top)
        have := hgo.admits (x ++ (test ++ (drop ++ m)))
        simpa [htest, hdrop, Nat.add_assoc] using this
      · have := henters.admits (x ++ (test ++ drop))
        simpa [htest, hdrop, Operand.size, Nat.add_assoc] using this
      · have := hflow (x ++ (test ++ drop)) ?_ ?_
        · simpa [htest, hdrop, Nat.add_assoc] using this
        · rw [size_append, size_append, htest, hdrop]
          rfl
        · have := hx.enters_append htesting
          simpa [Enters] using this
      · have := (enters_nil (.refl s)).admits (x ++ (test ++ (drop ++ (m ++ drop))))
        have hsum (n : Nat) : 3 + (1 + n) = 4 + n := by omega
        simpa [htest, hdrop, hsum, Operand.size, Nat.add_assoc] using this

end Flows

end Lox
