import Lox.Proofs.Ideal.Entries
import Lox.Proofs.Ideal.Step

namespace Lox

namespace Obj

def kind {κ : Type} : Obj κ → Kind
  | closure _ => .closure
  | native _ => .native
  | class_ .. => .class_
  | instance_ .. => .instance_
  | bound .. => .boundMethod

end Obj

def Val.kind? {κ : Type} (objects : List (Obj κ)) : Val → Option Kind
  | string _ => some .string
  | object a => objects[a]?.map Obj.kind
  | _ => none

namespace Heap

open HeapView

variable {h : Heap} {w : World} {objects : List (Obj Routine)} {upvalues : List Captured}

theorem Names.locOfValue {v : Value} {l : Loc} (hn : h.Names v l) : locOfValue v h = .ok l := by
  rw [locOfValue_eq, if_pos hn.isObject]
  have hf := hn.find?
  rw [Value.handle] at hf
  rw [hf]

theorem Names.ofKind {v : Value} {l : Loc} {o : Object} (hn : h.Names v l)
    (ho : h.objects[l]? = some o) (k : Kind) : ofKind v k h = .ok (o.kind == k) := by
  unfold HeapView.ofKind
  rw [if_pos hn.isObject, view_bind, hn.locOfValue]
  simp only
  rw [view_bind, object_eq_ok.mpr ho]
  rfl

theorem ofKind_plain {v : Value} (hv : v.isObject = false) (k : Kind) :
    ofKind v k h = .ok false := by
  unfold HeapView.ofKind
  rw [if_neg (by rw [hv]; simp)]
  rfl

theorem Names.asSymbol {v : Value} {l : Loc} {chars : Bytes} {hash : UInt32} (hn : h.Names v l)
    (hs : h.IsString l chars hash) : asSymbol v h = .ok ⟨l, chars, hash⟩ := by
  obtain ⟨o, ho, -, hb⟩ := hs
  unfold HeapView.asSymbol
  rw [view_bind, hn.locOfValue]
  exact symbolAt_eq_ok.mpr ⟨rfl, o, ho, hb⟩

theorem Depicts.kind {body : Body} {a : Nat} (hd : h.Depicts w objects upvalues body (.object a)) :
    ∃ x, objects[a]? = some x ∧ body.kind = x.kind := by
  cases hd with
  | closure ho => exact ⟨_, ho, rfl⟩
  | native ho => exact ⟨_, ho, rfl⟩
  | class_ ho => exact ⟨_, ho, rfl⟩
  | instance_ ho => exact ⟨_, ho, rfl⟩
  | bound ho => exact ⟨_, ho, rfl⟩

namespace Pictures

variable (hp : Pictures w objects upvalues h)

include hp

theorem body {l : Loc} {t : Thing} (ha : h.Alive l) (hw : w l = some t) :
    ∃ o, h.objects[l]? = some o ∧ h.linksAt l = o.body.links ∧
      h.Depicts w objects upvalues o.body t := by
  obtain ⟨o, ho, hf⟩ := ha
  exact ⟨o, ho, by rw [linksAt, ho], hp.depicts l o t ho hf hw⟩

theorem function {l : Loc} {p : Prototype} (ha : h.Alive l) (hw : w l = some (.function p)) :
    ∃ f, functionAt l h = .ok f ∧ h.ShowsFunction w f p ∧ h.linksAt l = (Body.function f).links := by
  obtain ⟨o, ho, hlinks, hd⟩ := hp.body ha hw
  generalize hb : o.body = b at hlinks hd
  cases hd with
  | function hs => exact ⟨_, functionAt_eq_ok.mpr ⟨o, ho, hb⟩, hs, hlinks⟩

theorem closure {l : Loc} {a : Nat} {r : Routine} (ha : h.Alive l) (hw : w l = some (.object a))
    (hx : objects[a]? = some (.closure r)) : ∃ c, closureAt l h = .ok c ∧
      w c.function = some (.function r.prototype) ∧ h.Alive c.function ∧
      List.Forall₂ (ShowsCapture w) c.upvalues.toList r.captures ∧
      h.linksAt l = (Body.closure c).links := by
  obtain ⟨o, ho, hlinks, hd⟩ := hp.body ha hw
  generalize hb : o.body = b at hlinks hd
  cases hd with
  | closure hobj hf hc =>
    rw [hx] at hobj
    cases hobj
    refine ⟨_, closureAt_eq_ok.mpr ⟨o, ho, hb⟩, hf, ?_, hc, hlinks⟩
    exact (hp.linked l ha (.object _) (by rw [hlinks]; exact .head _)).alive (.object _)
  | native hobj => rw [hx] at hobj; cases hobj
  | class_ hobj => rw [hx] at hobj; cases hobj
  | instance_ hobj => rw [hx] at hobj; cases hobj
  | bound hobj => rw [hx] at hobj; cases hobj

theorem class_ {l : Loc} {a : Nat} {name : Bytes} {methods : Dict Nat} (ha : h.Alive l)
    (hw : w l = some (.object a)) (hx : objects[a]? = some (.class_ name methods)) :
    ∃ c, classAt l h = .ok c ∧ c.name.chars = name ∧ h.ShowsTable w c.methods (asValues methods) ∧
      h.linksAt l = (Body.class_ c).links := by
  obtain ⟨o, ho, hlinks, hd⟩ := hp.body ha hw
  generalize hb : o.body = b at hlinks hd
  cases hd with
  | closure hobj => rw [hx] at hobj; cases hobj
  | native hobj => rw [hx] at hobj; cases hobj
  | class_ hobj _ ht =>
    rw [hx] at hobj
    cases hobj
    exact ⟨_, classAt_eq_ok.mpr ⟨o, ho, hb⟩, rfl, ht, hlinks⟩
  | instance_ hobj => rw [hx] at hobj; cases hobj
  | bound hobj => rw [hx] at hobj; cases hobj

theorem instance_ {l : Loc} {a k : Nat} {fields : Dict Val} (ha : h.Alive l)
    (hw : w l = some (.object a)) (hx : objects[a]? = some (.instance_ k fields)) :
    ∃ i, instanceAt l h = .ok i ∧ w i.class_ = some (.object k) ∧ h.Alive i.class_ ∧
      h.ShowsTable w i.fields fields ∧ h.linksAt l = (Body.instance_ i).links := by
  obtain ⟨o, ho, hlinks, hd⟩ := hp.body ha hw
  generalize hb : o.body = b at hlinks hd
  cases hd with
  | closure hobj => rw [hx] at hobj; cases hobj
  | native hobj => rw [hx] at hobj; cases hobj
  | class_ hobj => rw [hx] at hobj; cases hobj
  | instance_ hobj hc ht =>
    rw [hx] at hobj
    cases hobj
    refine ⟨_, instanceAt_eq_ok.mpr ⟨o, ho, hb⟩, hc, ?_, ht, hlinks⟩
    exact (hp.linked l ha (.object _) (by rw [hlinks]; exact .head _)).alive (.object _)
  | bound hobj => rw [hx] at hobj; cases hobj

theorem bound {l : Loc} {a k : Nat} {receiver : Val} (ha : h.Alive l) (hw : w l = some (.object a))
    (hx : objects[a]? = some (.bound receiver k)) : ∃ o b, object l h = .ok o ∧
      o.body = .boundMethod b ∧ h.Shows w b.receiver receiver ∧ w b.method = some (.object k) ∧
      h.Alive b.method := by
  obtain ⟨o, ho, hlinks, hd⟩ := hp.body ha hw
  generalize hb : o.body = b at hlinks hd
  cases hd with
  | closure hobj => rw [hx] at hobj; cases hobj
  | native hobj => rw [hx] at hobj; cases hobj
  | class_ hobj => rw [hx] at hobj; cases hobj
  | instance_ hobj => rw [hx] at hobj; cases hobj
  | bound hobj hrec hmeth =>
    rw [hx] at hobj
    cases hobj
    refine ⟨o, _, object_eq_ok.mpr ho, hb, hrec, hmeth, ?_⟩
    exact (hp.linked l ha (.object _) (by rw [hlinks]; exact .tail _ (.head _))).alive (.object _)

theorem captured {l : Loc} {u : Nat} (ha : h.Alive l) (hw : w l = some (.upvalue u)) :
    (∃ n, upvalues[u]? = some (.slot n) ∧ upvalueAt l h = .ok (.stack n)) ∨
      ∃ v x, upvalues[u]? = some (.closed x) ∧ upvalueAt l h = .ok (.closed v) ∧
        h.Shows w v x := by
  obtain ⟨o, ho, -, hd⟩ := hp.body ha hw
  generalize hb : o.body = b at hd
  cases hd with
  | slot hu => exact .inl ⟨_, hu, upvalueAt_eq_ok.mpr ⟨o, ho, hb⟩⟩
  | closed hu hv => exact .inr ⟨_, _, hu, upvalueAt_eq_ok.mpr ⟨o, ho, hb⟩, hv⟩

theorem ofKind {v : Value} {x : Val} (hx : h.Shows w v x) (k : Kind) :
    HeapView.ofKind v k h = .ok (x.kind? objects == some k) := by
  have hplain (hv : v.isObject = false) (hk : x.kind? objects = none) :
      HeapView.ofKind v k h = .ok (x.kind? objects == some k) := by
    rw [ofKind_plain hv, hk]
    rfl
  cases x with
  | nil => exact hplain (by rw [show v = .nil from hx]; rfl) rfl
  | bool b =>
    refine hplain ?_ rfl
    rw [show v = .ofBool b from hx]
    cases b <;> rfl
  | number bits => exact hplain (hx.2.isObject) rfl
  | string chars =>
    obtain ⟨l, hash, hn, o, ho, -, hb⟩ := hx
    rw [hn.ofKind ho, Object.kind, hb]
    rfl
  | object a =>
    obtain ⟨l, hn, hw⟩ := hx
    obtain ⟨o, ho, -, hd⟩ := hp.body (hn.alive hp.sound.consistent) hw
    obtain ⟨y, hy, hk⟩ := hd.kind
    rw [hn.ofKind ho, Object.kind, hk, Val.kind?, hy]
    rfl

end Pictures

end Heap

end Lox
