import Lox.Proofs.Lexical.Identifiers
import Lox.Proofs.Lexical.Uses
import Lox.Proofs.Verify.Scopes

namespace Lox

def Origin.follow : List (List Origin) → Nat → Option (Nat × Nat)
  | [], _ => none
  | origins :: outer, i =>
    match origins[i]? with
    | none => none
    | some ⟨true, n⟩ => some (1, n)
    | some ⟨false, j⟩ => (follow outer j).map fun r => (r.1 + 1, r.2)

inductive Place.Leads (χ : List (List Origin)) (κ : List Item) : Place → Target → Prop
  | slot (n : Nat) : Leads χ κ (.slot n) (.slot 0 n)
  | captured {i out n : Nat} : Origin.follow χ i = some (out, n) → Leads χ κ (.captured i) (.slot out n)
  | global {k : Nat} {name : Bytes} : κ[k]? = some (.string name) → Leads χ κ (.global k) (.global name)

def Opcode.forVariables : List Opcode :=
  [.getLocal, .setLocal, .getUpvalue, .setUpvalue, .getGlobal, .setGlobal, .closure]

/-- The code reads and writes variables as told. -/
inductive Code.Tells : List (List Origin) → List Item → List Line → List Use → Prop
  | nil {χ : List (List Origin)} {κ : List Item} : Tells χ κ [] []
  | mark {χ : List (List Origin)} {κ : List Item} {n : Nat} {code : List Line} {uses : List Use} :
      Tells χ κ code uses → Tells χ κ (.mark n :: code) uses
  | read {χ : List (List Origin)} {κ : List Item} {p : Place} {t : Target} {code : List Line} {uses : List Use} :
      p.Leads χ κ t → Tells χ κ code uses → Tells χ κ (p.read :: code) (.read t :: uses)
  | write {χ : List (List Origin)} {κ : List Item} {p : Place} {t : Target} {code : List Line} {uses : List Use} :
      p.Leads χ κ t → Tells χ κ code uses → Tells χ κ (p.write :: code) (.write t :: uses)
  | closure {χ : List (List Origin)} {κ : List Item} {k : Nat} {f : Listing Item} {code : List Line}
      {body uses : List Use} : κ[k]? = some (.function f) → Tells (f.origins :: χ) f.constants f.code body →
      Tells χ κ code uses → Tells χ κ (.instr .closure (.closure k f.origins) :: code) (.closure body :: uses)
  | other {χ : List (List Origin)} {κ : List Item} {op : Opcode} {operand : Operand} {code : List Line}
      {uses : List Use} : op ∉ Opcode.forVariables → Tells χ κ code uses →
      Tells χ κ (.instr op operand :: code) (.other op :: uses)

/-- A function reads and writes variables as told, and so do the functions in it. -/
def Listing.Tells (f : Listing Item) (uses : List Use) : Prop :=
  Code.Tells [f.origins] f.constants f.code uses

section

variable {χ χ' : List (List Origin)} {κ κ' : List Item} {a b : List Line} {us vs : List Use}

theorem Origin.follow_mono {i : Nat} {r : Nat × Nat} (h : follow χ i = some r)
    (hχ : List.Forall₂ (· <+: ·) χ χ') : follow χ' i = some r := by
  induction hχ generalizing i r with
  | nil => cases h
  | @cons origins origins' outer outer' horigins _ ih =>
    simp only [follow] at h ⊢
    cases ho : origins[i]? with
    | none =>
      rw [ho] at h
      cases h
    | some o =>
      have ho' : origins'[i]? = some o := by
        obtain ⟨hlt, rfl⟩ := List.getElem?_eq_some_iff.mp ho
        exact List.prefix_iff_getElem?.mp horigins i hlt
      obtain ⟨isLocal, j⟩ := o
      rw [ho] at h
      rw [ho']
      cases isLocal with
      | true => exact h
      | false =>
        obtain ⟨s, hs, rfl⟩ := Option.map_eq_some_iff.mp h
        dsimp only
        rw [ih hs]
        rfl

theorem Place.Leads.mono {p : Place} {t : Target} (h : p.Leads χ κ t) (hχ : List.Forall₂ (· <+: ·) χ χ')
    (hκ : κ <+: κ') : p.Leads χ' κ' t := by
  cases h with
  | slot n => exact .slot n
  | captured hi => exact .captured (Origin.follow_mono hi hχ)
  | global hk =>
    obtain ⟨hlt, hk'⟩ := List.getElem?_eq_some_iff.mp hk
    exact .global ((List.prefix_iff_getElem?.mp hκ _ hlt).trans (congrArg some hk'))

namespace Code.Tells

theorem append (ha : Tells χ κ a us) (hb : Tells χ κ b vs) : Tells χ κ (a ++ b) (us ++ vs) := by
  induction ha with
  | nil => exact hb
  | mark _ ih => exact .mark (ih hb)
  | read hp _ ih => exact .read hp (ih hb)
  | write hp _ ih => exact .write hp (ih hb)
  | closure hk hbody _ _ ih => exact .closure hk hbody (ih hb)
  | other hop _ ih => exact .other hop (ih hb)

end Code.Tells

end

namespace Level

def holds (l : Level) (n : Nat) : Bool :=
  l.locals.reverse[n]?.any (·.captured)

end Level

section

variable {ls ls' : List Level} {l l' : Level} {name : Bytes} {out n : Nat}

def heldAt (levels : List Level) (out n : Nat) : Bool :=
  levels[out]?.any (·.holds n)

@[simp] theorem heldAt_zero (l : Level) (ls : List Level) (n : Nat) : heldAt (l :: ls) 0 n = l.holds n := rfl

@[simp] theorem heldAt_succ (l : Level) (ls : List Level) (out n : Nat) :
    heldAt (l :: ls) (out + 1) n = heldAt ls out n := rfl

theorem holds_captureLocal {slot : Nat} {locals : List Local} (hslot : slot < locals.length) (n : Nat) :
    (captureLocal slot locals).reverse[n]?.any (·.captured) =
      (locals.reverse[n]?.any (·.captured) || decide (n = slot)) := by
  induction locals with
  | nil => exact absurd hslot (Nat.not_lt_zero slot)
  | cons v rest ih =>
    unfold captureLocal
    simp only [List.length_cons] at hslot
    by_cases hlen : rest.length = slot
    · rw [if_pos hlen]
      subst hlen
      simp only [List.reverse_cons, List.getElem?_append, List.length_reverse]
      by_cases hn : n < rest.length
      · simp [hn, Nat.ne_of_lt hn]
      · by_cases hat : n = rest.length
        · simp [hat]
        · rw [if_neg hn, List.getElem?_eq_none (by simp; omega), if_neg hn,
            List.getElem?_eq_none (by simp; omega), decide_eq_false hat]
          rfl
    · rw [if_neg hlen]
      have hlength : (captureLocal slot rest).length = rest.length :=
        (grown_captureLocal slot rest).length_eq.symm
      simp only [List.reverse_cons, List.getElem?_append, List.length_reverse, hlength]
      by_cases hn : n < rest.length
      · rw [if_pos hn, if_pos hn]
        exact ih (by omega)
      · rw [if_neg hn, if_neg hn, decide_eq_false (by omega), Bool.or_false]

def slotIn (name : Bytes) : List Bytes → Option Nat
  | [] => none
  | x :: rest => if x = name then some rest.length else slotIn name rest

theorem findLocal_slotIn (name : Bytes) (locals : List Local) :
    (findLocal name locals).map (·.1) = slotIn name (locals.map (·.name)) := by
  induction locals with
  | nil => rfl
  | cons v rest ih =>
    unfold findLocal
    rw [List.map_cons, slotIn]
    split
    · rw [List.length_map]
      rfl
    · exact ih

def lookup (name : Bytes) : List Level → Option (Nat × Nat)
  | [] => none
  | l :: outer =>
    match slotIn name (l.locals.map (·.name)) with
    | some slot => some (0, slot)
    | none => (lookup name outer).map fun r => (r.1 + 1, r.2)

theorem lookup_of_findLocal {slot : Nat} {v : Local} (h : findLocal name l.locals = some (slot, v)) :
    lookup name (l :: ls) = some (0, slot) := by
  have hslot := findLocal_slotIn name l.locals
  rw [h] at hslot
  rw [lookup, ← hslot]
  rfl

theorem lookup_outside (h : findLocal name l.locals = none) :
    lookup name (l :: ls) = (lookup name ls).map fun r => (r.1 + 1, r.2) := by
  have hslot := findLocal_slotIn name l.locals
  rw [h] at hslot
  rw [lookup, ← hslot]
  rfl

theorem capture_at {o : Origin} {i : Nat} (h : l.capture o = (i, l')) : l'.origins[i]? = some o ∧
    l'.locals = l.locals ∧ (l.origins.Nodup → l'.origins.Nodup) ∧ l'.constants = l.constants := by
  unfold Level.capture at h
  split at h
  · rename_i j hj
    cases h
    obtain ⟨hlt, hbeq, -⟩ := List.findIdx?_eq_some_iff_getElem.mp hj
    exact ⟨(List.getElem?_eq_getElem hlt).trans (congrArg some (beq_iff_eq.mp hbeq)), rfl, id, rfl⟩
  · rename_i hnone
    cases h
    have hnew : o ∉ l.origins := fun ho => by
      simpa using List.findIdx?_eq_none_iff.mp hnone o ho
    refine ⟨by simp, rfl, fun hdup => ?_, rfl⟩
    refine List.nodup_append.mpr ⟨hdup, List.pairwise_singleton _ o, fun a ha b hb hab => ?_⟩
    rw [List.mem_singleton] at hb
    exact hnew (hb ▸ hab ▸ ha)

structure FoundOutside (name : Bytes) (ls ls' : List Level) (i out n : Nat) : Prop where
  found : lookup name ls.tail = some (out, n)
  follow : Origin.follow (ls'.map (·.origins)) i = some (out + 1, n)
  held : ∀ d k, heldAt ls' d k = (heldAt ls d k || decide (d = out + 1 ∧ k = n))
  distinct : (∀ l ∈ ls, l.origins.Nodup) → ∀ l ∈ ls', l.origins.Nodup
  constants : ls'.map (·.constants) = ls.map (·.constants)

theorem findCapture_leads {r : Option Nat} (h : Level.findCapture name ls = some (r, ls')) :
    (r = none → lookup name ls.tail = none ∧ ls' = ls) ∧
      ∀ i, r = some i → ∃ out n, FoundOutside name ls ls' i out n := by
  induction ls generalizing r ls' with
  | nil =>
    cases h
    exact ⟨fun _ => ⟨rfl, rfl⟩, by rintro _ ⟨⟩⟩
  | cons l outer ih =>
    cases outer with
    | nil =>
      cases h
      exact ⟨fun _ => ⟨rfl, rfl⟩, by rintro _ ⟨⟩⟩
    | cons q rest =>
      rw [Level.findCapture] at h
      cases hfind : findLocal name q.locals with
      | some found =>
        -- a variable of the function just outside
        obtain ⟨slot, v⟩ := found
        rw [hfind] at h
        dsimp only at h
        split at h
        · cases h
        · generalize hcap : l.capture ⟨true, slot⟩ = captured at h
          obtain ⟨j, l₁⟩ := captured
          obtain ⟨hat, hlocals, hdistinct, hconstants⟩ := capture_at hcap
          cases h
          refine ⟨by rintro ⟨⟩, fun i hi => ⟨0, slot, ?_⟩⟩
          have hslot : slot < q.locals.length := by
            simpa using (List.getElem?_eq_some_iff.mp (findLocal_some hfind).1).1
          cases hi
          refine ⟨lookup_of_findLocal hfind, ?_, fun d k => ?_, fun hdup => ?_, ?_⟩
          · rw [List.map_cons, Origin.follow, hat]
          · obtain _ | _ | d := d
            · simp [Level.holds, hlocals]
            · simp only [heldAt_succ, heldAt_zero, Level.holds, holds_captureLocal hslot]
              simp
            · simp
          · rw [List.forall_mem_cons, List.forall_mem_cons] at hdup ⊢
            exact ⟨hdistinct hdup.1, hdup.2.1, hdup.2.2⟩
          · rw [List.map_cons, List.map_cons, List.map_cons, List.map_cons, hconstants]
      | none =>
        -- a variable of a function further out
        rw [hfind] at h
        dsimp only at h
        cases hrec : Level.findCapture name (q :: rest) with
        | none =>
          rw [hrec] at h
          cases h
        | some found =>
          obtain ⟨r', outer'⟩ := found
          rw [hrec] at h
          obtain ⟨hnone, hsome⟩ := ih hrec
          cases r' with
          | none =>
            cases h
            obtain ⟨hlookup, rfl⟩ := hnone rfl
            refine ⟨fun _ => ⟨?_, rfl⟩, by rintro _ ⟨⟩⟩
            show lookup name (q :: rest) = none
            rw [lookup_outside hfind]
            exact Option.map_eq_none_iff.mpr hlookup
          | some j =>
            dsimp only at h
            generalize hcap : l.capture ⟨false, j⟩ = captured at h
            obtain ⟨j', l₁⟩ := captured
            obtain ⟨hat, hlocals, hdistinct, hconstants⟩ := capture_at hcap
            cases h
            refine ⟨by rintro ⟨⟩, fun i hi => ?_⟩
            obtain ⟨out, n, hfound, hfollow, hheld, hdup', hconst'⟩ := hsome j rfl
            cases hi
            refine ⟨out + 1, n, ?_, ?_, fun d k => ?_, fun hdup => ?_, ?_⟩
            · show lookup name (q :: rest) = _
              rw [lookup_outside hfind]
              exact Option.map_eq_some_iff.mpr ⟨_, hfound, rfl⟩
            · rw [List.map_cons, Origin.follow, hat]
              dsimp only
              rw [hfollow]
              rfl
            · obtain _ | d := d
              · simp [Level.holds, hlocals]
              · rw [heldAt_succ, heldAt_succ, hheld]
                simp
            · rw [List.forall_mem_cons] at hdup ⊢
              exact ⟨hdistinct hdup.1, hdup' hdup.2⟩
            · rw [List.map_cons, List.map_cons, hconst', hconstants]

end

end Lox
