import Lox.Proofs.Machine.Trail
import Mathlib.Data.List.Forall2
import Mathlib.Logic.Relator

namespace Lox

variable {R S : Nat → Nat → Prop}

def Maps (R : Nat → Nat → Prop) (g g' : Nat → Option Nat) : Prop :=
  ∀ a b, g a = some b → ∃ a' b', R a a' ∧ R b b' ∧ g' a' = some b'

def Namesakes (R : Nat → Nat → Prop) (x x' : Bytes × Nat) : Prop :=
  x.1 = x'.1 ∧ R x.2 x'.2

def MapsBodies (R : Nat → Nat → Prop) (g g' : Nat → List (Bytes × Nat)) : Prop :=
  ∀ a, g a ≠ [] → ∃ a', R a a' ∧ List.Forall₂ (Namesakes R) (g a) (g' a')

theorem Maps.update {g g' : Nat → Option Nat} {a a' b b' : Nat} (h : Maps R g g') (hR : Relator.LeftUnique R)
    (ha : R a a') (hb : R b b') : Maps R (Function.update g a (some b)) (Function.update g' a' (some b')) := by
  intro c d hc
  by_cases hca : c = a
  · subst hca
    rw [Function.update_self] at hc
    cases hc
    exact ⟨a', b', ha, hb, Function.update_self ..⟩
  · rw [Function.update_of_ne hca] at hc
    obtain ⟨c', d', hcc, hdd, hd⟩ := h c d hc
    have hne : c' ≠ a' := by
      rintro rfl
      exact hca (hR hcc ha)
    exact ⟨c', d', hcc, hdd, by rw [Function.update_of_ne hne]; exact hd⟩

theorem MapsBodies.update {g g' : Nat → List (Bytes × Nat)} {a a' : Nat} {xs xs' : List (Bytes × Nat)}
    (h : MapsBodies R g g') (hR : Relator.LeftUnique R) (ha : R a a') (hxs : List.Forall₂ (Namesakes R) xs xs') :
    MapsBodies R (Function.update g a xs) (Function.update g' a' xs') := by
  intro c hc
  by_cases hca : c = a
  · subst hca
    refine ⟨a', ha, ?_⟩
    rw [Function.update_self, Function.update_self]
    exact hxs
  · rw [Function.update_of_ne hca] at hc
    obtain ⟨c', hcc, hbody⟩ := h c hc
    have hne : c' ≠ a' := by
      rintro rfl
      exact hca (hR hcc ha)
    refine ⟨c', hcc, ?_⟩
    rw [Function.update_of_ne hca, Function.update_of_ne hne]
    exact hbody

/-- All that the first story tells the second one tells, too. -/
structure Lineage.Within (R : Nat → Nat → Prop) (L M : Lineage) : Prop where
  maker : Maps R L.maker M.maker
  parent : Maps R L.parent M.parent
  own : MapsBodies R L.own M.own

structure Lineage.Alike (R : Nat → Nat → Prop) (L M : Lineage) : Prop where
  forth : L.Within R M
  back : M.Within (Function.swap R) L

inductive Deed.Alike (R : Nat → Nat → Prop) : Deed → Deed → Prop
  | idle : Alike R .idle .idle
  | makes {c c' m m' : Nat} : R c c' → R m m' → Alike R (.makes c m) (.makes c' m')
  | inherits {k k' p p' : Nat} : R k k' → R p p' → Alike R (.inherits k p) (.inherits k' p')
  | declares {k k' m m' : Nat} {n : Bytes} : R k k' → R m m' → Alike R (.declares k n m) (.declares k' n m')

theorem Deed.Alike.flip {d d' : Deed} (h : d.Alike R d') : d'.Alike (Function.swap R) d := by
  cases h with
  | idle => exact .idle
  | makes hc hm => exact .makes hc hm
  | inherits hk hp => exact .inherits hk hp
  | declares hk hm => exact .declares hk hm

theorem Deed.alike_of {op : Opcode} {name : Option Bytes} {running running' top top' second second' made made' :
    Option Nat}
    (hrunning : Option.Rel R running running') (htop : Option.Rel R top top') (hsecond : Option.Rel R second second')
    (hmade : Option.Rel R made made') :
    (Deed.of op name running top second made).Alike R (.of op name running' top' second' made') := by
  cases op with
  | closure =>
    cases hmade with
    | none => exact .idle
    | some hc =>
      cases hrunning with
      | none => exact .idle
      | some hm => exact .makes hc hm
  | inherit =>
    cases htop with
    | none => exact .idle
    | some hk =>
      cases hsecond with
      | none => exact .idle
      | some hp => exact .inherits hk hp
  | method =>
    cases name with
    | none => exact .idle
    | some n =>
      cases htop with
      | none => exact .idle
      | some hm =>
        cases hsecond with
        | none => exact .idle
        | some hk => exact .declares hk hm
  | _ => exact .idle

namespace Lineage

variable {L M : Lineage} {d d' : Deed} {k k' m p c c' : Nat} {n : Bytes}

theorem alike_empty : Alike R {} {} :=
  ⟨⟨nofun, nofun, fun _ h => absurd rfl h⟩, ⟨nofun, nofun, fun _ h => absurd rfl h⟩⟩

theorem Alike.flip (h : L.Alike R M) : M.Alike (Function.swap R) L :=
  ⟨h.back, h.forth⟩

theorem Within.mono (h : L.Within R M) (hRS : ∀ a b, R a b → S a b) : L.Within S M where
  maker a b hab := by
    obtain ⟨a', b', ha, hb, hab'⟩ := h.maker a b hab
    exact ⟨a', b', hRS _ _ ha, hRS _ _ hb, hab'⟩
  parent a b hab := by
    obtain ⟨a', b', ha, hb, hab'⟩ := h.parent a b hab
    exact ⟨a', b', hRS _ _ ha, hRS _ _ hb, hab'⟩
  own a ha := by
    obtain ⟨a', haa, hbody⟩ := h.own a ha
    exact ⟨a', hRS _ _ haa, hbody.imp fun _ _ hx => ⟨hx.1, hRS _ _ hx.2⟩⟩

theorem Alike.mono (h : L.Alike R M) (hRS : ∀ a b, R a b → S a b) : L.Alike S M :=
  ⟨h.forth.mono hRS, h.back.mono fun a b => hRS b a⟩

theorem Alike.body (h : L.Alike R M) (hR : Relator.BiUnique R) (hk : R k k') :
    List.Forall₂ (Namesakes R) (L.own k) (M.own k') := by
  by_cases hown : L.own k = []
  · by_cases hown' : M.own k' = []
    · rw [hown, hown']
      exact .nil
    · obtain ⟨j, hj, hbody⟩ := h.back.own k' hown'
      obtain rfl : j = k := hR.1 hj hk
      rw [hown] at hbody
      exact absurd (List.forall₂_nil_right_iff.mp hbody) hown'
  · obtain ⟨j, hj, hbody⟩ := h.forth.own k hown
    obtain rfl : j = k' := hR.2 hj hk
    exact hbody

theorem Alike.parent (h : L.Alike R M) (hR : Relator.BiUnique R) (hk : R k k') :
    Option.Rel R (L.parent k) (M.parent k') := by
  cases hp : L.parent k with
  | some p =>
    obtain ⟨j, p', hj, hpp, hp'⟩ := h.forth.parent k p hp
    obtain rfl : j = k' := hR.2 hj hk
    rw [hp']
    exact .some hpp
  | none =>
    cases hp' : M.parent k' with
    | none => exact .none
    | some p' =>
      obtain ⟨j, p, hj, -, hp''⟩ := h.back.parent k' p' hp'
      obtain rfl : j = k := hR.1 hj hk
      rw [hp] at hp''
      cases hp''

theorem Within.after (h : L.Within R M) (hR : Relator.LeftUnique R)
    (hbody : ∀ {k k'}, R k k' → List.Forall₂ (Namesakes R) (L.own k) (M.own k')) (hd : d.Alike R d') :
    (L.after d).Within R (M.after d') := by
  cases hd with
  | idle => exact h
  | makes hc hm => exact ⟨h.maker.update hR hc hm, h.parent, h.own⟩
  | inherits hk hp => exact ⟨h.maker, h.parent.update hR hk hp, h.own⟩
  | declares hk hm => exact ⟨h.maker, h.parent, h.own.update hR hk (.cons ⟨rfl, hm⟩ (hbody hk))⟩

theorem Alike.chain (h : L.Alike R M) (hR : Relator.BiUnique R) (hc : L.Chain k p) (hk : R k k') :
    ∃ p', R p p' ∧ M.Chain k' p' := by
  induction hc generalizing k' with
  | self => exact ⟨k', hk, .self⟩
  | above hp _ ih =>
    have hparent := h.parent hR hk
    rw [hp] at hparent
    generalize hp' : M.parent k' = o at hparent
    cases hparent with
    | some hpp =>
      obtain ⟨q', hq, hchain⟩ := ih hpp
      exact ⟨q', hq, .above hp' hchain⟩

theorem Alike.after (h : L.Alike R M) (hR : Relator.BiUnique R) (hd : d.Alike R d') :
    (L.after d).Alike R (M.after d') :=
  ⟨h.forth.after hR.1 (h.body hR) hd, h.back.after (fun _ _ _ ha hb => hR.2 ha hb)
    (h.flip.body ⟨fun _ _ _ ha hb => hR.2 ha hb, fun _ _ _ ha hb => hR.1 ha hb⟩) hd.flip⟩

theorem lookup_namesakes {xs xs' : List (Bytes × Nat)} (h : List.Forall₂ (Namesakes R) xs xs') (n : Bytes) :
    Option.Rel R (xs.lookup n) (xs'.lookup n) := by
  induction h with
  | nil => exact .none
  | @cons x x' xs xs' hx _ ih =>
    obtain ⟨n₁, m⟩ := x
    obtain ⟨n₂, m'⟩ := x'
    obtain ⟨rfl, hm⟩ := hx
    rw [List.lookup_cons, List.lookup_cons]
    cases n == n₁ with
    | true => exact .some hm
    | false => exact ih

theorem Alike.nearest (h : L.Alike R M) (hR : Relator.BiUnique R) (hk : R k k') (hm : L.Nearest k n m) :
    ∃ m', R m m' ∧ M.Nearest k' n m' := by
  induction hm generalizing k' with
  | @own k n m hm =>
    have hlookup := lookup_namesakes (h.body hR hk) n
    rw [hm] at hlookup
    cases hm' : (M.own k').lookup n with
    | none =>
      rw [hm'] at hlookup
      cases hlookup
    | some m' =>
      rw [hm'] at hlookup
      cases hlookup with
      | some hmm => exact ⟨m', hmm, .own hm'⟩
  | @inherited k p n m hnone hp _ ih =>
    have hlookup := lookup_namesakes (h.body hR hk) n
    rw [hnone] at hlookup
    have hparent := h.parent hR hk
    rw [hp] at hparent
    cases hp' : M.parent k' with
    | none =>
      rw [hp'] at hparent
      cases hparent
    | some p' =>
      rw [hp'] at hparent
      cases hparent with
      | some hpp =>
        obtain ⟨m', hmm, hm'⟩ := ih hpp
        refine ⟨m', hmm, .inherited ?_ hp' hm'⟩
        cases hm'' : (M.own k').lookup n with
        | none => rfl
        | some j =>
          rw [hm''] at hlookup
          cases hlookup

theorem namesakes_flip {xs xs' : List (Bytes × Nat)} (h : List.Forall₂ (Namesakes R) xs xs') :
    List.Forall₂ (Namesakes (Function.swap R)) xs' xs :=
  (h.imp fun _ _ hx => ⟨hx.1.symm, hx.2⟩ : List.Forall₂ (Function.swap (Namesakes (Function.swap R))) xs xs').flip

theorem mem_namesakes {xs xs' : List (Bytes × Nat)} {x' : Bytes × Nat} (h : List.Forall₂ (Namesakes R) xs xs')
    (hx : x' ∈ xs') : ∃ x ∈ xs, Namesakes R x x' := by
  induction h with
  | nil => cases hx
  | cons hxx _ ih =>
    rcases List.mem_cons.mp hx with rfl | hx
    · exact ⟨_, .head _, hxx⟩
    · obtain ⟨y, hy, hyx⟩ := ih hx
      exact ⟨y, .tail _ hy, hyx⟩

theorem Alike.declared (h : L.Alike R M) (hmem : (n, c) ∈ L.own k) : ∃ c' k', R c c' ∧ R k k' ∧ (n, c') ∈ M.own k' := by
  obtain ⟨k', hkk, hbody⟩ := h.forth.own k (List.ne_nil_of_mem hmem)
  obtain ⟨⟨n', c'⟩, hmem', hn, hcc⟩ := mem_namesakes (namesakes_flip hbody) hmem
  obtain rfl : n' = n := hn
  exact ⟨c', k', hcc, hkk, hmem'⟩

theorem Alike.belongs (h : L.Alike R M) (hR : Relator.BiUnique R) (hb : L.Belongs c k) :
    ∃ c' k', R c c' ∧ R k k' ∧ M.Belongs c' k' := by
  induction hb with
  | @method n c k hmem =>
    obtain ⟨c', k', hcc, hkk, hmem'⟩ := h.declared hmem
    exact ⟨c', k', hcc, hkk, .method hmem'⟩
  | @made c d k hmaker hmethod _ ih =>
    obtain ⟨c', k', hcc, hkk, hb'⟩ := ih
    obtain ⟨d', e', hdd, hee, hmaker'⟩ := h.forth.maker d c hmaker
    obtain rfl : e' = c' := hR.2 hee hcc
    refine ⟨d', k', hdd, hkk, .made hmaker' (fun j n hmem => ?_) hb'⟩
    obtain ⟨i, hij, hbody⟩ := h.back.own j (List.ne_nil_of_mem hmem)
    obtain ⟨⟨n', e⟩, hmem', hn, hed⟩ := mem_namesakes (h.body hR hij) hmem
    exact hmethod i n' (hR.1 hed hdd ▸ hmem')

end Lineage

end Lox
