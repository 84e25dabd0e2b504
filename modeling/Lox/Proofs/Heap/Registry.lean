import Lox.Proofs.Heap.Intern

namespace Lox

def RootMarker.Numbers (marker : Nat → RootMarker) : Prop :=
  ∀ n, (marker n).serial = n

theorem RootMarker.numbers_compiler : Numbers .compiler := fun _ => rfl

theorem RootMarker.numbers_host : Numbers .host := fun _ => rfl

namespace Heap

variable {h h' : Heap} {r : Roots} {k : RootMarker} {links : List Link} {link : Link}

theorem serial_lt (hk : k ∈ h.markers) : k.serial < h.serial := by
  unfold serial
  revert hk
  induction h.markers with
  | nil => exact nofun
  | cons j ms ih =>
    intro hk
    rw [List.foldr_cons]
    rcases List.mem_cons.mp hk with rfl | hk
    · exact Nat.lt_of_lt_of_le (Nat.lt_succ_self _) (Nat.le_max_left _ _)
    · exact Nat.lt_of_lt_of_le (ih hk) (Nat.le_max_right _ _)

theorem fresh {marker : Nat → RootMarker} (hm : RootMarker.Numbers marker) (h : Heap) :
    marker h.serial ∉ h.markers := fun hk =>
  absurd (serial_lt hk) (by rw [hm]; exact Nat.lt_irrefl _)

def standing (r : Roots) (k : RootMarker) (links : List Link) : Roots :=
  fun j => if j = k then links else r j

theorem mem_registered : link ∈ h.registered r ↔ ∃ k ∈ h.markers, link ∈ r k :=
  List.mem_flatMap

theorem mem_registered_standing (hk : k ∈ h.markers) :
    link ∈ h.registered (standing r k links) ↔ link ∈ links ∨ ∃ j ∈ h.markers, j ≠ k ∧ link ∈ r j := by
  simp only [mem_registered, standing]
  constructor
  · rintro ⟨j, hj, hm⟩
    split at hm
    · exact .inl hm
    · exact .inr ⟨j, hj, ‹_›, hm⟩
  · rintro (hm | ⟨j, hj, hne, hm⟩)
    · exact ⟨k, hk, by rwa [if_pos rfl]⟩
    · exact ⟨j, hj, by rwa [if_neg hne]⟩

theorem mem_registered_joined (hk : k ∉ h.markers) :
    link ∈ registered { h with markers := h.markers ++ [k] } (standing r k links) ↔
      link ∈ links ∨ link ∈ h.registered r := by
  rw [mem_registered_standing (List.mem_append_right _ (List.mem_singleton.mpr rfl)), mem_registered]
  refine or_congr_right ⟨?_, ?_⟩
  · rintro ⟨j, hj, hne, hm⟩
    rcases List.mem_append.mp hj with hj | hj
    · exact ⟨j, hj, hm⟩
    · exact absurd (List.mem_singleton.mp hj) hne
  · rintro ⟨j, hj, hm⟩
    exact ⟨j, List.mem_append_left _ hj, fun he => hk (he ▸ hj), hm⟩

theorem mem_origins_joined (hk : k ∉ h.markers) :
    link ∈ origins { h with markers := h.markers ++ [k] } (standing r k links) ↔
      link ∈ links ∨ link ∈ h.origins r := by
  simp only [origins, List.mem_append, mem_registered_joined hk]
  exact or_left_comm

end Heap

namespace HeapM

open Heap

variable {α β : Type} {bad : Prop} {r : Roots} {h : Heap}

theorem Delivers.tryFinally {x : HeapM α} {y : HeapM β} {mid post : α → Heap → Prop}
    (hx : Delivers bad r h x mid) (hg : Grows y)
    (hy : ∀ a h', mid a h' → Delivers bad r h' y fun _ h'' => post a h'') :
    Delivers bad r h (tryFinally x y) post := by
  unfold Delivers at hx ⊢
  rw [run_finally]
  cases hxr : x r h with
  | error e h' =>
    rw [hxr] at hx
    simp only
    have hgrow := hg r h'
    rcases hx with hex | hb
    · have hend : Exhausted (finalState (y r h')) := Nat.lt_of_lt_of_le hex hgrow
      cases hyr : y r h' <;> rw [hyr] at hend <;> exact .inl hend
    · cases y r h' <;> exact .inr hb
  | ok a h' =>
    rw [hxr] at hx
    simp only
    have hgrow := hg r h'
    rcases hx with hex | hmid
    · have hend : Exhausted (finalState (y r h')) := Nat.lt_of_lt_of_le hex hgrow
      cases hyr : y r h' <;> rw [hyr] at hend <;> exact .inl hend
    · have h₂ := hy a h' hmid
      unfold Delivers at h₂
      cases hyr : y r h' <;> rw [hyr] at h₂ <;> exact h₂

theorem delivers_rooting {marker : Nat → RootMarker} {act : RootMarker → HeapM α} {post : α → Heap → Prop}
    (hm : RootMarker.Numbers marker)
    (hx : ∀ k, k ∉ h.markers → Delivers bad r { h with markers := h.markers ++ [k] } (act k) fun a h' =>
      h'.markers = h.markers ++ [k] ∧ post a { h' with markers := h.markers }) :
    Delivers bad r h (rooting marker act) post := by
  apply delivers_getHeap_bind
  apply delivers_modify_bind
  refine (hx _ (fresh hm h)).tryFinally (grows_removeRoots _) fun a h' ⟨hmk, hp⟩ => delivers_modify ?_
  rw [hmk, List.erase_append_right _ (fresh hm h), List.erase_cons_head, List.append_nil]
  exact hp

end HeapM

end Lox
