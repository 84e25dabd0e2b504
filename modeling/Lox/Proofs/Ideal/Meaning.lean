import Lox.Proofs.Ideal.Views

namespace Lox

def Value.plain (v : Value) : Val :=
  if v.isNumber then .number v.bits else if v = .nil then .nil else .bool (v == .true)

namespace Heap

open HeapView

variable {h : Heap} {w : World} {objects : List (Obj Routine)} {upvalues : List Captured}

theorem Names.isNumber {v : Value} {l : Loc} (hn : h.Names v l) : v.isNumber = false :=
  Value.isNumber_of_isObject hn.isObject

theorem Names.ne {v u : Value} {l : Loc} (hn : h.Names v l) (hu : u.isObject = false) : v ≠ u := by
  rintro rfl
  rw [hn.isObject] at hu
  cases hu

theorem Names.ne_special {v : Value} {l : Loc} (hn : h.Names v l) :
    (v == .true) = false ∧ (v == .false) = false ∧ (v == .nil) = false := by
  refine ⟨?_, ?_, ?_⟩ <;> exact beq_eq_false_iff_ne.mpr (hn.ne rfl)

namespace Shows

variable {v u : Value} {x y : Val}

theorem isNumber (hx : h.Shows w v x) : v.isNumber = x.isNumber := by
  cases x with
  | nil =>
    rw [show v = .nil from hx]
    rfl
  | bool b =>
    rw [show v = .ofBool b from hx]
    cases b <;> rfl
  | number bits => exact hx.2.isNumber
  | string chars =>
    obtain ⟨l, hash, hn, -⟩ := hx
    exact hn.isNumber
  | object a =>
    obtain ⟨l, hn, -⟩ := hx
    exact hn.isNumber

theorem isFalsey (hx : h.Shows w v x) : v.isFalsey = x.isFalsey := by
  cases x with
  | nil =>
    rw [show v = .nil from hx]
    rfl
  | bool b =>
    rw [show v = .ofBool b from hx]
    cases b <;> rfl
  | number bits =>
    have h₁ : v ≠ .nil := by
      rintro rfl
      exact absurd hx.2 (by decide)
    have h₂ : v ≠ .false := by
      rintro rfl
      exact absurd hx.2 (by decide)
    simp [Value.isFalsey, Val.isFalsey, h₁, h₂]
  | string chars =>
    obtain ⟨l, hash, hn, -⟩ := hx
    simp [Value.isFalsey, Val.isFalsey, hn.ne_special]
  | object a =>
    obtain ⟨l, hn, -⟩ := hx
    simp [Value.isFalsey, Val.isFalsey, hn.ne_special]

theorem eq_plain (hx : h.Shows w v x) (hv : v.isObject = false) : x = v.plain := by
  cases x with
  | nil =>
    rw [show v = .nil from hx]
    rfl
  | bool b =>
    rw [show v = .ofBool b from hx]
    cases b <;> rfl
  | number bits =>
    rw [Value.plain, if_pos hx.2.isNumber, hx.1]
  | string chars =>
    obtain ⟨l, hash, hn, -⟩ := hx
    rw [hn.isObject] at hv
    cases hv
  | object a =>
    obtain ⟨l, hn, -⟩ := hx
    rw [hn.isObject] at hv
    cases hv

theorem names (hx : h.Shows w v x) (hv : v.isObject = true) : ∃ l, h.Names v l ∧
    ((∃ chars hash, x = .string chars ∧ h.IsString l chars hash) ∨
      ∃ a, x = .object a ∧ w l = some (.object a)) := by
  have hplain {u : Value} (hu : v = u) (ho : u.isObject = false) : False := by
    rw [hu, ho] at hv
    cases hv
  cases x with
  | nil => exact (hplain hx rfl).elim
  | bool b => exact (hplain hx (by cases b <;> rfl)).elim
  | number bits =>
    rw [hx.2.isObject] at hv
    cases hv
  | string chars =>
    obtain ⟨l, hash, hn, hs⟩ := hx
    exact ⟨l, hn, .inl ⟨chars, hash, rfl, hs⟩⟩
  | object a =>
    obtain ⟨l, hn, hw⟩ := hx
    exact ⟨l, hn, .inr ⟨a, rfl, hw⟩⟩

end Shows

namespace Pictures

variable (hp : Pictures w objects upvalues h) {v u : Value} {x y : Val}

include hp

theorem shows_functional (hx : h.Shows w v x) (hy : h.Shows w v y) : x = y := by
  have hmixed {l : Loc} {chars : Bytes} {hash : UInt32} {a : Nat} (hs : h.IsString l chars hash)
      (hw : w l = some (.object a)) : False := by
    obtain ⟨o, ho, hf, hb⟩ := hs
    obtain ⟨z, -, hk⟩ := (hp.depicts l o _ ho hf hw).kind
    rw [hb] at hk
    cases z <;> cases hk
  cases hv : v.isObject with
  | false => rw [hx.eq_plain hv, hy.eq_plain hv]
  | true =>
    obtain ⟨l, hn, hx⟩ := hx.names hv
    obtain ⟨k, hn', hy⟩ := hy.names hv
    obtain rfl := hn.functional hn'
    rcases hx with ⟨chars, hash, rfl, hs⟩ | ⟨a, rfl, hw⟩ <;>
      rcases hy with ⟨chars', hash', rfl, hs'⟩ | ⟨a', rfl, hw'⟩
    · obtain ⟨o, ho, -, hb⟩ := hs
      obtain ⟨o', ho', -, hb'⟩ := hs'
      rw [ho] at ho'
      cases ho'
      rw [hb] at hb'
      cases hb'
      rfl
    · exact (hmixed hs hw').elim
    · exact (hmixed hs' hw).elim
    · rw [hw] at hw'
      cases hw'
      rfl

theorem shows_injective (hx : h.Shows w v x) (hy : h.Shows w u x) : v = u := by
  cases x with
  | nil => exact (show v = .nil from hx).trans (show u = .nil from hy).symm
  | bool b => exact (show v = .ofBool b from hx).trans (show u = .ofBool b from hy).symm
  | number bits => exact hx.1.trans hy.1.symm
  | string chars =>
    obtain ⟨l, hash, hn, hs⟩ := hx
    obtain ⟨k, hash', hn', hs'⟩ := hy
    have hlk : l = k := hp.sound.strings.unique l k chars hash hash' hs hs'
    subst hlk
    exact hn.injective hp.sound.consistent hn'
  | object a =>
    obtain ⟨l, hn, hw⟩ := hx
    obtain ⟨k, hn', hw'⟩ := hy
    obtain rfl := hp.object_inj l k a hw hw'
    exact hn.injective hp.sound.consistent hn'

theorem equal (hx : h.Shows w v x) (hy : h.Shows w u y) : v.equal u = x.equal y := by
  have hiff : v = u ↔ x = y := by
    constructor
    · rintro rfl
      exact hp.shows_functional hx hy
    · rintro rfl
      exact hp.shows_injective hx hy
  have hbeq : (v == u) = decide (x = y) := by
    rw [Bool.eq_iff_iff, beq_iff_eq, decide_eq_true_iff, hiff]
  unfold Value.equal
  rw [hx.isNumber, hy.isNumber]
  cases x with
  | number bits =>
    cases y with
    | number bits' =>
      rw [hx.1, hy.1]
      rfl
    | _ => exact hbeq
  | _ => exact hbeq

theorem functionText {l : Loc} {p : Prototype} (ha : h.Alive l) (hw : w l = some (.function p)) :
    ∃ f, functionAt l h = .ok f ∧ f.text = p.text := by
  obtain ⟨f, hf, hs, -⟩ := hp.function ha hw
  refine ⟨f, hf, ?_⟩
  unfold Function.text Template.text
  rw [← hs.name]
  cases f.name <;> rfl

theorem formatObject {l : Loc} {a : Nat} {text : Bytes} (ha : h.Alive l)
    (hw : w l = some (.object a))
    (ht : Obj.text? (fun c : Routine => c.prototype.text) objects a = some text) :
    HeapView.formatObject l h = .ok text := by
  have hclosure {k : Loc} {b : Nat} {r : Routine} (hk : h.Alive k) (hwk : w k = some (.object b))
      (hb : objects[b]? = some (.closure r)) : (do
        return (← functionAt (← closureAt k).function).text : HeapView Bytes) h =
        .ok r.prototype.text := by
    obtain ⟨c, hc, hf, hfa, -⟩ := hp.closure hk hwk hb
    obtain ⟨f, hfn, htext⟩ := hp.functionText hfa hf
    rw [view_bind, hc]
    dsimp only
    rw [view_bind, hfn, ← htext]
    rfl
  obtain ⟨o, ho, hlinks, hd⟩ := hp.body ha hw
  have hvalid := hp.linked l ha
  rw [hlinks] at hvalid
  unfold HeapView.formatObject
  rw [view_bind, object_eq_ok.mpr ho]
  dsimp only
  generalize hb : o.body = b at hd hvalid
  cases hd with
  | @closure c _ r hobj hf hcap =>
    rw [Obj.text?, hobj] at ht
    cases ht
    obtain ⟨f, hfn, htext⟩ := hp.functionText ((hvalid (.object _) (.head _)).alive (.object _)) hf
    dsimp only
    rw [view_bind, hfn, ← htext]
    rfl
  | native hobj =>
    rw [Obj.text?, hobj] at ht
    cases ht
    rfl
  | class_ hobj =>
    rw [Obj.text?, hobj] at ht
    cases ht
    rfl
  | @instance_ i _ k fields hobj hc =>
    rw [Obj.text?, hobj] at ht
    dsimp only at ht
    split at ht
    · next name methods hk =>
      cases ht
      obtain ⟨c, hcl, hname, -⟩ := hp.class_ ((hvalid (.object _) (.head _)).alive (.object _)) hc hk
      dsimp only
      rw [view_bind, hcl, ← hname]
      rfl
    · cases ht
  | @bound b _ m receiver hobj _ hm =>
    rw [Obj.text?, hobj] at ht
    obtain ⟨r, hr, rfl⟩ := Option.map_eq_some_iff.mp ht
    obtain ⟨z, hz, hzr⟩ := Option.bind_eq_some_iff.mp hr
    cases z with
    | closure r' =>
      cases hzr
      exact hclosure ((hvalid (.object _) (.tail _ (.head _))).alive (.object _)) hm hz
    | _ => cases hzr

theorem formatValue {text : Bytes} (hx : h.Shows w v x)
    (ht : x.text? (fun c : Routine => c.prototype.text) objects = some text) :
    HeapView.formatValue v h = .ok text := by
  unfold HeapView.formatValue
  rw [hx.isNumber]
  cases x with
  | nil =>
    rw [show v = .nil from hx]
    cases ht
    rfl
  | bool b =>
    rw [show v = .ofBool b from hx]
    cases b <;> cases ht <;> rfl
  | number bits =>
    rw [hx.1]
    cases ht
    rfl
  | string chars =>
    obtain ⟨l, hash, hn, o, ho, -, hb⟩ := hx
    cases ht
    simp only [Val.isNumber, hn.ne_special, hn.isObject, Bool.false_eq_true, ↓reduceIte]
    rw [view_bind, hn.locOfValue]
    dsimp only
    unfold HeapView.formatObject
    rw [view_bind, object_eq_ok.mpr ho]
    dsimp only
    rw [hb]
    rfl
  | object a =>
    obtain ⟨l, hn, hw⟩ := hx
    simp only [Val.isNumber, hn.ne_special, hn.isObject, Bool.false_eq_true, ↓reduceIte]
    rw [view_bind, hn.locOfValue]
    exact hp.formatObject (hn.alive hp.sound.consistent) hw ht

end Pictures

end Heap

end Lox
