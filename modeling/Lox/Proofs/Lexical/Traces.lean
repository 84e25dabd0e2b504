import Lox.Proofs.Lexical.Places
import Lox.Proofs.Verify.Declarations

namespace Lox

namespace FunctionKind

def receiverName (k : FunctionKind) : Bytes :=
  if k.isMethod then "this" else ""

theorem receiverName_ne {k : FunctionKind} {name : Bytes} (hthis : name ≠ "this") (hempty : name ≠ "") :
    k.receiverName ≠ name := by
  unfold receiverName
  split
  · exact hthis.symm
  · exact hempty.symm

end FunctionKind

namespace VarName

def name : VarName → Bytes
  | named n => n
  | superclass => "super"

def Valid : VarName → Prop
  | named n => IsIdentifier n
  | superclass => True

variable {u v : VarName}

theorem Valid.name_inj (hu : u.Valid) (hv : v.Valid) : u.name = v.name ↔ u = v := by
  refine ⟨fun h => ?_, congrArg _⟩
  cases u with
  | named n =>
    cases v with
    | named m => exact congrArg named h
    | superclass => exact absurd h (IsIdentifier.ne_super hu)
  | superclass =>
    cases v with
    | named m => exact absurd h.symm (IsIdentifier.ne_super hv)
    | superclass => rfl

theorem Valid.ne_this (hv : v.Valid) : v.name ≠ "this" := by
  cases v with
  | named n => exact IsIdentifier.ne_this hv
  | superclass => exact by decide

theorem Valid.nonempty (hv : v.Valid) : v.name ≠ "" := by
  cases v with
  | named n => exact IsIdentifier.nonempty hv
  | superclass => exact by decide

end VarName

structure Nest.Fits (n : Nest) (l : Level) : Prop where
  kind : l.kind = n.kind
  inside : n.inside = decide (0 < l.depth)
  names : l.locals.map (·.name) = n.bindings.map VarName.name ++ [n.kind.receiverName]
  valid : ∀ v ∈ n.bindings, v.Valid

abbrev Env.Fits (env : Env) (levels : List Level) : Prop :=
  List.Forall₂ Nest.Fits env levels

section

variable {env : Env} {ls ls' : List Level} {l l' : Level} {n : Nest} {v : VarName}

theorem Nest.Fits.slots (h : n.Fits l) : l.locals.length = n.bindings.length + 1 := by
  have := congrArg List.length h.names
  simpa using this

theorem map_name_grown {us vs : List Local} (h : List.Forall₂ Local.Grown us vs) :
    vs.map (·.name) = us.map (·.name) := by
  induction h with
  | nil => rfl
  | cons hv _ ih => rw [List.map_cons, List.map_cons, hv.name, ih]

theorem Nest.Fits.grown (h : n.Fits l) (hl : l.Grown l') : n.Fits l' where
  kind := hl.kind.trans h.kind
  inside := by rw [hl.depth, h.inside]
  names := (map_name_grown hl.locals).trans h.names
  valid := h.valid

theorem Env.Fits.grown (h : env.Fits ls) (hls : List.Forall₂ Level.Grown ls ls') : env.Fits ls' := by
  induction h generalizing ls' with
  | nil =>
    cases hls
    exact .nil
  | cons hn _ ih =>
    cases hls with
    | cons hl hls => exact .cons (hn.grown hl) (ih hls)

theorem slotIn_valid {bindings : List VarName} (hb : ∀ u ∈ bindings, u.Valid) (hv : v.Valid) (k : FunctionKind) :
    slotIn v.name (bindings.map VarName.name ++ [k.receiverName]) = v.slot? bindings := by
  induction bindings with
  | nil =>
    show slotIn v.name [k.receiverName] = none
    rw [slotIn, if_neg (FunctionKind.receiverName_ne hv.ne_this hv.nonempty)]
    rfl
  | cons u rest ih =>
    rw [List.forall_mem_cons] at hb
    rw [List.map_cons, List.cons_append, slotIn, VarName.slot?, ih hb.2]
    simp only [(VarName.Valid.name_inj hb.1 hv)]
    simp

theorem slotIn_this {bindings : List VarName} (hb : ∀ u ∈ bindings, u.Valid) (k : FunctionKind) :
    slotIn "this" (bindings.map VarName.name ++ [k.receiverName]) = if k.isMethod then some 0 else none := by
  induction bindings with
  | nil =>
    show slotIn "this" [k.receiverName] = _
    rw [slotIn, FunctionKind.receiverName]
    cases k.isMethod <;> rfl
  | cons u rest ih =>
    rw [List.forall_mem_cons] at hb
    rw [List.map_cons, List.cons_append, slotIn, if_neg hb.1.ne_this, ih hb.2]

theorem Env.Fits.lookup (h : env.Fits ls) (hv : v.Valid) : lookup v.name ls = env.find v := by
  induction h with
  | nil => rfl
  | @cons n _ _ _ hn _ ih =>
    cases hslot : v.slot? n.bindings with
    | some slot => simp only [Lox.lookup, hn.names, slotIn_valid hn.valid hv, Env.find, hslot]
    | none => simp only [Lox.lookup, hn.names, slotIn_valid hn.valid hv, Env.find, hslot, ih]

theorem Env.Fits.lookup_this (h : env.Fits ls) :
    Lox.lookup "this" ls = (env.findIdx? (·.kind.isMethod)).map fun out => (out, 0) := by
  induction h with
  | nil => rfl
  | @cons n l _ _ hn _ ih =>
    rw [Lox.lookup, hn.names, slotIn_this hn.valid, List.findIdx?_cons, ih]
    cases n.kind.isMethod with
    | true => rfl
    | false =>
      simp only [Bool.false_eq_true, if_false, Option.map_map]
      rfl

def targetIn (name : Bytes) (ls : List Level) : Target :=
  match lookup name ls with
  | some (out, slot) => .slot out slot
  | none => .global name

theorem Env.Fits.target {name : Bytes} (h : env.Fits ls) (hname : IsIdentifier name) :
    targetIn name ls = env.target name := by
  have hlookup : Lox.lookup name ls = env.find (.named name) := h.lookup (v := .named name) hname
  cases hfind : env.find (.named name) <;> simp only [targetIn, hlookup, Env.target, hfind]

theorem Env.Fits.receiver (h : env.Fits ls) (hmethod : ∃ n ∈ env, n.kind.isMethod = true) :
    targetIn "this" ls = env.receiver := by
  rw [targetIn, h.lookup_this, Env.receiver]
  cases hfind : env.findIdx? (·.kind.isMethod) with
  | some out => rfl
  | none =>
    obtain ⟨n, hn, hk⟩ := hmethod
    have := List.findIdx?_eq_none_iff.mp hfind n hn
    rw [hk] at this
    cases this

theorem lookup_isSome {name : Bytes} (hl : l ∈ ls) {u : Local} (hu : u ∈ l.locals) (hname : u.name = name) :
    (lookup name ls).isSome = true := by
  have hslot {names : List Bytes} (hx : name ∈ names) : (slotIn name names).isSome = true := by
    induction names with
    | nil => cases hx
    | cons x rest ih =>
      rw [slotIn]
      split
      · rfl
      · rename_i hne
        exact ih ((List.mem_cons.mp hx).resolve_left fun he => hne he.symm)
  induction ls with
  | nil => cases hl
  | cons q rest ih =>
    rw [lookup]
    cases hs : slotIn name (q.locals.map (·.name)) with
    | some slot => rfl
    | none =>
      rcases List.mem_cons.mp hl with rfl | hl
      · have := hslot (List.mem_map.mpr ⟨u, hu, hname⟩)
        rw [hs] at this
        cases this
      · rw [Option.isSome_map]
        exact ih hl

theorem Env.Fits.superclass (h : env.Fits ls) (hsuper : HasSuper ls) :
    targetIn "super" ls = env.superclass := by
  obtain ⟨l, hl, u, hu, hname⟩ := hsuper
  have hsome := lookup_isSome hl hu hname
  have hlookup : Lox.lookup "super" ls = env.find .superclass := h.lookup (v := .superclass) trivial
  rw [hlookup] at hsome
  rw [targetIn, hlookup, Env.superclass]
  cases hfind : env.find .superclass with
  | some r => rfl
  | none =>
    rw [hfind] at hsome
    cases hsome

end

end Lox

namespace Lox

open PlanM

section

variable {out n : Nat} {us vs : List Use}

@[simp] theorem capturesAny_nil : Use.capturesAny out n [] = false := rfl

@[simp] theorem capturesAny_cons (u : Use) (us : List Use) :
    Use.capturesAny out n (u :: us) = (u.captures out n || Use.capturesAny out n us) := rfl

@[simp] theorem capturesAny_append :
    Use.capturesAny out n (us ++ vs) = (Use.capturesAny out n us || Use.capturesAny out n vs) := by
  induction us with
  | nil => rfl
  | cons u us ih => rw [List.cons_append, capturesAny_cons, capturesAny_cons, ih, Bool.or_assoc]

@[simp] theorem capturesAny_others (ops : List Opcode) :
    Use.capturesAny out n (ops.map Use.other) = false := by
  induction ops with
  | nil => rfl
  | cons op ops ih => exact ih

@[simp] theorem captures_other (op : Opcode) : (Use.other op).captures out n = false := rfl

@[simp] theorem captures_closure (body : List Use) :
    (Use.closure body).captures out n = Use.capturesAny (out + 1) n body := rfl

theorem captures_read (t : Target) : (Use.read t).captures out n = (decide (0 < out) && decide (t = .slot out n)) :=
  rfl

theorem captures_write (t : Target) : (Use.write t).captures out n = (decide (0 < out) && decide (t = .slot out n)) :=
  rfl

end

inductive Listing.Distinct : Listing Item → Prop
  | intro {f : Listing Item} : f.origins.Nodup → (∀ q, Item.function q ∈ f.constants → q.Distinct) → f.Distinct

def DistinctLevels (ls : List Level) : Prop :=
  ∀ l ∈ ls, l.origins.Nodup ∧ ∀ f, Item.function f ∈ l.constants → f.Distinct

def HasSlot (ls : List Level) (out n : Nat) : Prop :=
  ∃ l, ls[out]? = some l ∧ n < l.locals.length

structure Views (ls : List Level) (χ : List (List Origin)) (κ : List Item) : Prop where
  origins : List.Forall₂ (fun (l : Level) o => l.origins <+: o) ls χ
  constants : ∀ l ∈ ls.head?, l.constants <+: κ

section

variable {n : Nat} {ls ls' : List Level} {l l' : Level} {χ : List (List Origin)} {κ : List Item}

theorem Views.back (h : Views ls' χ κ) (hls : List.Forall₂ Level.Grown ls ls') : Views ls χ κ := by
  obtain ⟨horigins, hconstants⟩ := h
  constructor
  · clear hconstants
    induction hls generalizing χ with
    | nil => exact horigins
    | cons hl _ ih =>
      cases horigins with
      | cons ho horigins => exact .cons (hl.origins.trans ho) (ih horigins)
  · intro l hl
    cases hls with
    | nil => cases hl
    | cons hgrown _ =>
      cases hl
      exact hgrown.constants.trans (hconstants _ rfl)

theorem Views.before (h : Views ls' χ κ) (hadds : Plan.Adds n ⟨ls, []⟩ ⟨ls', []⟩) : Views ls χ κ := by
  have hunder : Views (ls'.modifyHead (Level.under n)) χ κ := by
    obtain ⟨horigins, hconstants⟩ := h
    cases horigins with
    | nil => exact ⟨.nil, nofun⟩
    | @cons l _ _ _ ho horigins =>
      refine ⟨.cons ho horigins, fun q hq => ?_⟩
      cases hq
      exact hconstants l rfl
  exact hunder.back hadds.grown.levels

theorem HasSlot.later {out k : Nat} (h : HasSlot ls out k) (hadds : Plan.Adds n ⟨ls, []⟩ ⟨ls', []⟩) :
    HasSlot ls' out k := by
  obtain ⟨l, hl, hk⟩ := h
  cases ls with
  | nil => cases hl
  | cons q qs =>
    obtain ⟨q', qs', rfl, hgrown, hqs⟩ := hadds.levels rfl
    cases out with
    | zero =>
      cases hl
      have := hgrown.locals.length_eq
      rw [Level.under, List.length_drop] at this
      exact ⟨q', rfl, by omega⟩
    | succ out =>
      rw [List.getElem?_cons_succ] at hl
      obtain ⟨l', hl', hgrown'⟩ := forall₂_getElem?_left hqs hl
      exact ⟨l', hl', by rw [← hgrown'.locals.length_eq]; exact hk⟩

theorem Place.Leads.seen {p : Place} {t : Target} {rest : List Level} (hv : Views (l :: rest) χ κ)
    (h : p.Leads ((l :: rest).map (·.origins)) l.constants t) : p.Leads χ κ t :=
  h.mono (List.forall₂_map_left_iff.mpr hv.origins) (hv.constants l rfl)

end

structure Traces (n : Nat) (ls ls' : List Level) (lines : List Line) (uses : List Use) : Prop where
  adds : Plan.Adds n ⟨ls, []⟩ ⟨ls', []⟩
  tells : ∀ χ κ, Views ls' χ κ → Code.Tells χ κ lines uses
  held : ∀ out k, HasSlot ls out k → heldAt ls' out k = (heldAt ls out k || Use.capturesAny out k uses)
  distinct : DistinctLevels ls → DistinctLevels ls'

namespace Traces

variable {n m : Nat} {ls ls₁ ls₂ : List Level} {a b : List Line} {us vs : List Use} {o : Opcode}

theorem nil (hs : SoundLevels ls) : Traces 0 ls ls [] [] where
  adds := Plan.Grown.adds (.refl hs)
  tells _ _ _ := .nil
  held _ _ _ := by simp
  distinct := id

theorem append (ha : Traces n ls ls₁ a us) (hb : Traces m ls₁ ls₂ b vs) :
    Traces (m + n) ls ls₂ (a ++ b) (us ++ vs) where
  adds := ha.adds.trans hb.adds
  tells χ κ hv := (ha.tells χ κ (hv.before hb.adds)).append (hb.tells χ κ hv)
  held out k hk := by
    rw [hb.held out k (hk.later ha.adds), ha.held out k hk, capturesAny_append, Bool.or_assoc]
  distinct h := hb.distinct (ha.distinct h)

theorem sound (h : Traces n ls ls₁ a us) : SoundLevels ls₁ :=
  h.adds.sound

theorem marked (h : Traces n ls ls₁ a us) (k : Nat) : Traces n ls ls₁ (.mark k :: a) us where
  adds := h.adds
  tells χ κ hv := .mark (h.tells χ κ hv)
  held := h.held
  distinct := h.distinct

theorem other (hs : SoundLevels ls) (ho : o ∉ Opcode.forVariables) (operand : Operand) :
    Traces 0 ls ls [.instr o operand] [.other o] where
  adds := (nil hs).adds
  tells _ _ _ := .other ho .nil
  held _ _ _ := by simp
  distinct := id

theorem others (hs : SoundLevels ls) (ops : List Opcode) (hops : ∀ op ∈ ops, op ∉ Opcode.forVariables) :
    Traces 0 ls ls (ops.map (.instr · .none)) (ops.map .other) := by
  induction ops with
  | nil => exact nil hs
  | cons op ops ih =>
    rw [List.forall_mem_cons] at hops
    exact (other hs hops.1 .none).append (ih hops.2)

theorem ready {g g' : Plan} (h : Traces n g.levels g'.levels a us) (hc : g'.classes = g.classes)
    (hg : g.Open) : g'.Open :=
  hg.adds (n := n) ⟨⟨h.adds.grown.levels, hc, h.adds.grown.sound⟩, h.adds.sound, h.adds.news⟩

theorem fits {env : Env} (h : Traces 0 ls ls₁ a us) (henv : env.Fits ls) : env.Fits ls₁ :=
  henv.grown h.adds.grown_of_zero.levels

end Traces

section

variable {g g' : Plan} {l l' : Level} {ls ls' : List Level} {name : Bytes}

@[simp] theorem heldAt_constants (l : Level) (ls : List Level) (items : List Item) (out k : Nat) :
    heldAt ({ l with constants := items } :: ls) out k = heldAt (l :: ls) out k := by
  cases out <;> rfl

theorem Plan.Grown.bare (h : g.Grown g') : Plan.Adds 0 ⟨g.levels, []⟩ ⟨g'.levels, []⟩ :=
  Plan.Grown.adds ⟨h.levels, rfl, h.sound⟩

@[simp] theorem heldAt_declared (l : Level) (ls : List Level) (classes : List ClassBody) (out k : Nat) :
    heldAt ({ l with declared := classes } :: ls) out k = heldAt (l :: ls) out k := by
  cases out <;> rfl

theorem distinct_declared (classes : List ClassBody) (h : DistinctLevels (l :: ls)) :
    DistinctLevels ({ l with declared := classes } :: ls) :=
  List.forall_mem_cons.mpr (List.forall_mem_cons.mp h)

theorem Traces.enlisted {n : Nat} {lines : List Line} {uses : List Use} {classes : List ClassBody} {u : Unit}
    (h : Traces n ls g.levels lines uses) (henlist : enlist classes g = some (u, g')) :
    Traces n ls g'.levels lines uses := by
  have hgrown := (enlist_meets henlist h.sound).1.bare
  obtain ⟨q, qs, hq, rfl⟩ := enlist_some henlist
  rw [hq] at h hgrown
  refine ⟨Nat.zero_add n ▸ h.adds.trans hgrown, fun χ κ hv => h.tells χ κ (hv.before hgrown), fun out k hk => ?_,
    fun hd => distinct_declared _ (h.distinct hd)⟩
  rw [heldAt_declared]
  exact h.held out k hk

theorem distinct_constant {item : Item} (hitem : ∀ f, item = .function f → f.Distinct)
    (h : DistinctLevels (l :: ls)) : DistinctLevels ({ l with constants := l.constants ++ [item] } :: ls) := by
  obtain ⟨hl, hls⟩ := List.forall_mem_cons.mp h
  refine List.forall_mem_cons.mpr ⟨⟨hl.1, fun f hf => ?_⟩, hls⟩
  rcases List.mem_append.mp hf with hf | hf
  · exact hl.2 f hf
  · exact hitem f (List.mem_singleton.mp hf).symm

theorem traces_constant {item : Item} {k : Nat} (h : constant item g = some (k, g'))
    (hs : SoundLevels g.levels) (hitem : ∀ f, item ≠ .function f) : Traces 0 g.levels g'.levels [] [] := by
  have hgrown := (constant_meets h hs fun f hf => absurd hf (hitem f)).1
  obtain ⟨l, ls, hls, rfl, rfl⟩ := constant_some h
  refine ⟨hgrown.bare, fun _ _ _ => .nil, fun out k _ => ?_, fun hdistinct => ?_⟩
  · rw [capturesAny_nil, Bool.or_false, hls, heldAt_constants]
  · rw [hls] at hdistinct
    exact distinct_constant (fun f hf => absurd hf (hitem f)) hdistinct

structure Resolves (ls ls' : List Level) (p : Place) (t : Target) : Prop where
  adds : Plan.Adds 0 ⟨ls, []⟩ ⟨ls', []⟩
  leads : ∀ χ κ, Views ls' χ κ → p.Leads χ κ t
  held : ∀ out k, heldAt ls' out k = (heldAt ls out k || (Use.read t).captures out k)
  distinct : DistinctLevels ls → DistinctLevels ls'

theorem distinct_of_origins (horigins : ∀ l ∈ ls', l.origins.Nodup)
    (hconstants : ls'.map (·.constants) = ls.map (·.constants)) (h : DistinctLevels ls) : DistinctLevels ls' := by
  refine fun l hl => ⟨horigins l hl, fun f hf => ?_⟩
  obtain ⟨q, hq, hsame⟩ := List.mem_map.mp (hconstants ▸ List.mem_map.mpr ⟨l, hl, rfl⟩)
  exact (h q hq).2 f (hsame ▸ hf)

theorem resolves {place : Place} (h : resolve name g = some (place, g')) (hs : SoundLevels g.levels) :
    Resolves g.levels g'.levels place (targetIn name g.levels) := by
  have hadds := (resolve_meets h hs).1.bare
  obtain ⟨l, ls, hls, ⟨slot, v, hfind, hinit, rfl, rfl⟩ | ⟨hfind, i, levels, hcap, rfl, rfl⟩ |
    ⟨hfind, k, levels, hcap, hk, rfl⟩⟩ := resolve_some h
  · have ht : targetIn name g'.levels = .slot 0 slot := by
      rw [targetIn, hls, lookup_of_findLocal hfind]
    refine ⟨hadds, fun _ _ _ => ?_, fun out k => ?_, id⟩
    · rw [ht]
      exact .slot slot
    · rw [ht, captures_read]
      cases out <;> simp
  · obtain ⟨out, n, hfound, hfollow, hheld, hdistinct, hconstants⟩ := (findCapture_leads hcap).2 i rfl
    rw [hls] at hfound
    have ht : targetIn name g.levels = .slot (out + 1) n := by
      have hlookup : lookup name ls = some (out, n) := hfound
      rw [targetIn, hls, lookup_outside hfind, hlookup]
      rfl
    refine ⟨hadds, fun χ κ hv => ?_, fun d k => ?_, fun hd => ?_⟩
    · rw [ht]
      obtain ⟨q, rest, hq⟩ : ∃ q rest, levels = q :: rest := by
        cases levels with
        | nil => cases hfollow
        | cons q rest => exact ⟨q, rest, rfl⟩
      subst hq
      exact Place.Leads.seen hv (.captured hfollow)
    · rw [ht, captures_read]
      show heldAt levels d k = _
      rw [hheld]
      congr 1
      simp only [Target.slot.injEq, Bool.decide_and, eq_comm (a := d), eq_comm (a := k)]
      cases d <;> simp
    · exact distinct_of_origins (hdistinct fun l hl => (hd l hl).1) hconstants hd
  · obtain ⟨hlookup, rfl⟩ := (findCapture_leads hcap).1 rfl
    have hsound := (findCapture_spec hcap hs).2.1
    have hconstant := traces_constant hk hsound (by rintro _ ⟨⟩)
    rw [hls] at hlookup
    have ht : targetIn name g.levels = .global name := by
      have hlookup' : lookup name ls = none := hlookup
      rw [targetIn, hls, lookup_outside hfind, hlookup']
      rfl
    obtain ⟨q, qs, hq, rfl, rfl⟩ := constant_some hk
    have hq' : g.levels = q :: qs := hq
    refine ⟨hadds, fun χ κ hv => ?_, fun out n => ?_, hconstant.distinct⟩
    · rw [ht]
      exact Place.Leads.seen hv (.global (by simp))
    · rw [ht, captures_read, hq', heldAt_constants]
      simp

namespace Resolves

variable {ls₁ ls₂ : List Level} {p : Place} {t : Target} {a : List Line} {us : List Use}

theorem read (h : Resolves ls ls₁ p t) : Traces 0 ls ls₁ [p.read] [.read t] where
  adds := h.adds
  tells χ κ hv := .read (h.leads χ κ hv) .nil
  held out k _ := by rw [h.held, capturesAny_cons, capturesAny_nil, Bool.or_false]
  distinct := h.distinct

theorem write (h : Resolves ls ls₁ p t) (ha : Traces 0 ls₁ ls₂ a us) :
    Traces 0 ls ls₂ (a ++ [p.write]) (us ++ [.write t]) where
  adds := h.adds.trans ha.adds
  tells χ κ hv := (ha.tells χ κ hv).append (.write (h.leads χ κ (hv.before ha.adds)) .nil)
  held out k hk := by
    rw [ha.held out k (hk.later h.adds), h.held, capturesAny_append, capturesAny_cons, capturesAny_nil,
      Bool.or_false, captures_read, captures_write, Bool.or_assoc, Bool.or_comm (Use.capturesAny out k us)]
  distinct hd := ha.distinct (h.distinct hd)

end Resolves

end

end Lox
