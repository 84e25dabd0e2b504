import Lox.Proofs.Device.Turns
import Lox.Proofs.Runner.Serial

namespace Lox

namespace Device

variable {d d' : Device} {n : Nat}

theorem next_eq_some {piece : Bytes} (h : d.next n = (some piece, d')) : d.output.drop d.offset ≠ [] ∧
    piece = (d.output.drop d.offset).take n ∧ d' = { d with offset := d.offset + piece.length } := by
  unfold next at h
  split at h
  · cases h
  · rename_i hne
    cases h
    exact ⟨hne, rfl, rfl⟩

theorem next_eq_none (h : d.next n = (none, d')) :
    d.output.drop d.offset = [] ∧ d' = { d with offset := 0 } := by
  unfold next at h
  split at h
  · rename_i hnil
    cases h
    exact ⟨hnil, rfl⟩
  · cases h

end Device

namespace Desk

open Traffic (Served)

variable {execute : Bytes → Outcome} {es : List Event} {s s' s₀ : Desk} {x x' : Shared} {u u' : User}
  {d : Option Deed}

section Runner

variable {evs : List Traffic.Event} {e : Option Traffic.Event} {r r' : Runner}

def StaysGone (evs new : List Traffic.Event) (r r' : Runner) : Prop :=
  r.worker = .gone → r'.worker = .gone ∧ Traffic.began (evs ++ new) = Traffic.began evs

theorem staysGone_accept {source : Bytes} {number : Nat} (i : Nat)
    (h : r.accept? source = some (number, r')) : StaysGone evs
      [if r.queue.length < r.depth then .accepted i ⟨number, source⟩ else .handed i ⟨number, source⟩] r r' := by
  intro hgone
  unfold Runner.accept? at h
  split at h
  · rename_i hroom
    cases h
    rw [if_pos hroom]
    exact ⟨hgone, by simp⟩
  · rw [hgone] at h
    split at h
    · rename_i hidle
      cases hidle
    · cases h

theorem Behind.served (h : Behind x e x') (hs : Served execute evs x.runner) :
    Served execute (evs ++ e.toList) x'.runner ∧ StaysGone evs e.toList x.runner x'.runner := by
  have hnone {r : Runner} (hr : Served execute evs r) :
      Served execute (evs ++ (none : Option Traffic.Event).toList) r := by
    rwa [Option.toList_none, List.append_nil]
  have hsame {r r' : Runner} (hr : r'.worker = r.worker) : StaysGone evs (none : Option Traffic.Event).toList r r' :=
    fun hgone => ⟨hr.trans hgone, by rw [Option.toList_none, List.append_nil]⟩
  cases h with
  | submit i htakes => exact ⟨hs.accept i htakes, staysGone_accept i htakes⟩
  | take htakes hrunning =>
    refine ⟨hs.take htakes hrunning, fun hgone => ?_⟩
    unfold Runner.take? at htakes
    rw [hgone] at htakes
    cases htakes
  | proceed hgoes =>
    refine ⟨hs.proceed hgoes, fun hgone => ?_⟩
    unfold Runner.proceed? at hgoes
    rw [hgone] at hgoes
    cases hgoes
  | leave hleaves =>
    unfold Runner.leave? at hleaves
    split at hleaves
    · rename_i hidle
      split at hleaves
      · cases hleaves
        refine ⟨hnone (hs.leave hidle), fun hgone => ?_⟩
        rw [hgone] at hidle
        cases hidle
      · cases hleaves
    · cases hleaves
  | askToStop => exact ⟨hnone (hs.congr rfl), hsame rfl⟩
  | release => exact ⟨hnone (hs.congr rfl), hsame rfl⟩
  | receive => exact ⟨hnone hs, hsame rfl⟩
  | notice => exact ⟨hnone hs, hsame rfl⟩
  | miss => exact ⟨hnone hs, hsame rfl⟩

theorem Behind.device_eq (h : Behind x e x') : x'.device = x.device := by
  cases h <;> rfl

def Ended (evs : List Traffic.Event) (number : Nat) (outcome : Outcome) : Prop :=
  ∃ job, job.number = number ∧ (job, outcome) ∈ Traffic.delivered evs

def Unserved (evs : List Traffic.Event) (r : Runner) (number : Nat) : Prop :=
  r.worker = .gone ∧ ∀ job ∈ Traffic.began evs, job.number ≠ number

def Watched (evs : List Traffic.Event) (r : Runner) (number : Nat) : Watch → Prop
  | .waiting => True
  | .looking => r.worker = .gone
  | .ended (.ok outcome) => Ended evs number outcome
  | .ended (.error _) => Unserved evs r number

theorem Ended.append {number : Nat} {outcome : Outcome} (h : Ended evs number outcome)
    (new : List Traffic.Event) : Ended (evs ++ new) number outcome := by
  obtain ⟨job, hnumber, hdelivered⟩ := h
  refine ⟨job, hnumber, ?_⟩
  unfold Traffic.delivered
  rw [List.filterMap_append]
  exact List.mem_append_left _ hdelivered

theorem Unserved.append {number : Nat} {new : List Traffic.Event} (h : Unserved evs r number)
    (hgone : StaysGone evs new r r') : Unserved (evs ++ new) r' number := by
  obtain ⟨hworker, hbegan⟩ := hgone h.1
  refine ⟨hworker, ?_⟩
  rw [hbegan]
  exact h.2

theorem Watched.append {number : Nat} {w : Watch} {new : List Traffic.Event} (h : Watched evs r number w)
    (hgone : StaysGone evs new r r') : Watched (evs ++ new) r' number w := by
  cases w with
  | waiting => trivial
  | looking => exact (hgone h).1
  | ended result =>
    cases result with
    | ok outcome => exact Ended.append h new
    | error reason => exact Unserved.append h hgone

theorem unserved_of_missing {number : Nat} (hs : Served execute evs r) (hgone : r.worker = .gone)
    (hmissing : r.outcome? number = none) : Unserved evs r number := by
  refine ⟨hgone, ?_⟩
  rintro job hbegan rfl
  exact hs.outcome?_of_began hgone hbegan hmissing

theorem Behind.watched (h : Behind x e x') (hs : Served execute evs x.runner)
    (hw : ∀ number w, x.watch number = some w → Watched evs x.runner number w) (number : Nat) (w : Watch)
    (hnew : x'.watch number = some w) : Watched (evs ++ e.toList) x'.runner number w := by
  have hgone := (h.served hs).2
  -- only one watch moves, if any
  have hupdate (k : Nat) (w' : Watch) (hmoved : Watched evs x.runner k w')
      (hnew : Function.update x.watch k (some w') number = some w) : Watched evs x.runner number w := by
    by_cases hk : number = k
    · subst hk
      rw [Function.update_self] at hnew
      cases hnew
      exact hmoved
    · rw [Function.update_of_ne hk] at hnew
      exact hw number w hnew
  cases h with
  | receive _ hthere =>
    obtain ⟨job, hjob⟩ := hs.delivered_of_outcome? hthere
    exact (hupdate _ (.ended (.ok _)) ⟨job, hjob⟩ hnew).append hgone
  | notice _ hstopped =>
    exact (hupdate _ .looking (Traffic.gone_of_isStopped hstopped) hnew).append hgone
  | miss hlooking hmissing =>
    have hunserved := unserved_of_missing hs (hw _ _ hlooking) hmissing
    exact (hupdate _ (.ended (.error _)) hunserved hnew).append hgone
  | _ => exact (hw number w hnew).append hgone

end Runner

def User.inHand : User → List Nat
  | .accepted _ number => [number]
  | _ => []

def User.Fits (device : Device) : User → Prop
  | .handing _ | .offering _ | .accepted .. => device.pending = none
  | _ => True

theorem User.inHand_of_not_holds (h : u.holds = false) : u.inHand = [] := by
  cases u with
  | accepted => cases h
  | _ => rfl

theorem User.fits_of_not_holds (h : u.holds = false) (device : Device) : u.Fits device := by
  cases u with
  | handing | offering | accepted => cases h
  | _ => trivial

structure Tape.Fits (t : Tape) (device : Device) : Prop where
  last : device.last = t.last
  output : device.output = t.output
  offset : device.offset = t.read.length
  read : t.read <+: t.output

namespace Act

section

variable (h : Act x u d x' u') (hu : u.holds = false)

include h hu

theorem device_eq : x'.device = x.device := by
  cases h with
  | enter | wake | giveUpWaiting | reenter => rfl
  | refuse hat => rcases hat with rfl | rfl <;> cases hu
  | _ => cases hu

theorem untouched : d.bind Deed.submitted? = none ∧ d.bind Deed.settled? = none ∧ u'.inHand = [] := by
  cases h with
  | enter | wake | giveUpWaiting | reenter => exact ⟨rfl, rfl, rfl⟩
  | refuse hat => rcases hat with rfl | rfl <;> cases hu
  | _ => cases hu

end

variable (h : Act x u d x' u')

include h

theorem fits (hu : u.Fits x.device) : u'.Fits x'.device := by
  cases h with
  | hand _ hsettled => exact hsettled
  | offer | accept => exact hu
  | _ => trivial

theorem passes (hu : u.Fits x.device) :
    x.device.pending.toList ++ u.inHand ++ ((d.bind Deed.submitted?).map Job.number).toList =
      (d.bind Deed.settled?).toList ++ x'.device.pending.toList ++ u'.inHand := by
  have hnil (l : List Nat) : l ++ [] ++ [] = [] ++ l ++ [] := by simp
  cases h with
  | harvest hpending | giveUp hpending =>
    rw [hpending]
    rfl
  | wrote | accept =>
    have hnone : x.device.pending = none := hu
    rw [hnone]
    rfl
  | refuse hat =>
    rcases hat with rfl | rfl <;> exact hnil _
  | read _ _ hmore =>
    rw [(Device.next_eq_some hmore).2.2]
    exact hnil _
  | reachEnd _ _ hend =>
    rw [(Device.next_eq_none hend).2]
    exact hnil _
  | _ => exact hnil _

theorem tape {t : Tape} (ht : t.Fits x.device) : (d.elim t t.play).Fits x'.device := by
  obtain ⟨hlast, houtput, hoffset, hread⟩ := ht
  cases h with
  | harvest => exact ⟨rfl, rfl, rfl, List.nil_prefix⟩
  | open_ => exact ⟨hlast, houtput, rfl, List.nil_prefix⟩
  | @read n piece device _ _ hmore =>
    obtain ⟨-, hpiece, rfl⟩ := Device.next_eq_some hmore
    refine ⟨hlast, houtput, ?_, ?_⟩
    · exact hoffset ▸ List.length_append.symm
    · obtain ⟨rest, hrest⟩ := hread
      have hdrop : x.device.output.drop x.device.offset = rest := by
        rw [houtput, ← hrest, hoffset, List.drop_left]
      rw [hdrop] at hpiece
      refine ⟨rest.drop n, ?_⟩
      show t.read ++ piece ++ rest.drop n = t.output
      rw [hpiece, List.append_assoc, List.take_append_drop, hrest]
  | reachEnd _ _ hend =>
    obtain ⟨-, rfl⟩ := Device.next_eq_none hend
    exact ⟨hlast, houtput, rfl, List.nil_prefix⟩
  | refuse hat => rcases hat with rfl | rfl <;> exact ⟨hlast, houtput, hoffset, hread⟩
  | _ => exact ⟨hlast, houtput, hoffset, hread⟩

theorem watch_eq {number : Nat} {w : Watch} (hw : x'.watch number = some w) :
    w = .waiting ∨ x.watch number = some w := by
  cases h with
  | wrote _ k =>
    by_cases hk : number = k
    · subst hk
      have hself : some Watch.waiting = some w := by rwa [← Function.update_self number (some Watch.waiting) x.watch]
      exact .inl (Option.some.inj hself).symm
    · refine .inr ?_
      rwa [← Function.update_of_ne hk (some Watch.waiting) x.watch]
  | _ => exact .inr hw

theorem served {evs : List Traffic.Event} (i : Nat) (hs : Served execute evs x.runner) :
    Served execute (evs ++ ((d.map (.did i)).bind Event.ofRunner?).toList) x'.runner ∧
      StaysGone evs ((d.map (.did i)).bind Event.ofRunner?).toList x.runner x'.runner := by
  have hsame : Served execute (evs ++ []) x.runner ∧ StaysGone evs [] x.runner x.runner := by
    rw [List.append_nil]
    exact ⟨hs, fun hgone => ⟨hgone, by rw [List.append_nil]⟩⟩
  cases h with
  | @accept source number r htakes =>
    have hevent : (if decide (x.runner.depth ≤ x.runner.queue.length) = true then
        Traffic.Event.handed i ⟨number, source⟩ else .accepted i ⟨number, source⟩) =
        if x.runner.queue.length < x.runner.depth then .accepted i ⟨number, source⟩
          else .handed i ⟨number, source⟩ := by
      by_cases hroom : x.runner.queue.length < x.runner.depth
      · simp [hroom]
      · simp [hroom, Nat.not_lt.mp hroom]
    simp only [Option.map_some, Option.bind_some, Event.ofRunner?, Option.toList_some, hevent]
    exact ⟨hs.accept i htakes, staysGone_accept i htakes⟩
  | refuse hat => rcases hat with rfl | rfl <;> exact hsame
  | _ => exact hsame

end Act

theorem submitted_sublist (d : Option Deed) (i : Nat) : (d.bind Deed.submitted?).toList.Sublist
    (Traffic.accepted ((d.map (Event.did i)).bind Event.ofRunner?).toList) := by
  cases d with
  | none => exact .slnil
  | some d =>
    cases d with
    | submitted job atOnce => cases atOnce <;> exact .refl _
    | _ => exact List.nil_sublist _

def inHand (s : Desk) : List Nat :=
  ((s.lock.bind (s.users[·]?)).map User.inHand).getD []

structure Kept (execute : Bytes → Outcome) (es : List Event) (s : Desk) : Prop where
  served : Served execute (ofRunner es) s.runner
  watched : ∀ number w, s.watch number = some w → Watched (ofRunner es) s.runner number w
  locked : ∀ i u, s.users[i]? = some u → u.holds = true → s.lock = some i
  fits : ∀ u ∈ s.users, u.Fits s.device
  passed : (submitted es).map Job.number = settled es ++ s.device.pending.toList ++ s.inHand
  known : (submitted es).Sublist (Traffic.accepted (ofRunner es))
  harvested : ∀ i number outcome, .did i (.harvested number outcome) ∈ es → Ended (ofRunner es) number outcome
  gaveUp : ∀ i number, .did i (.gaveUp number) ∈ es → Unserved (ofRunner es) s.runner number
  tape : (tape es).Fits s.device

def AllSettled (es : List Event) : Prop :=
  settled es = (submitted es).map Job.number

def Deed.Due (es : List Event) : Deed → Prop
  | .submitted .. => AllSettled es
  | .read n piece => AllSettled es ∧
      ∃ rest, (Desk.tape es).output = (Desk.tape es).read ++ rest ∧ rest ≠ [] ∧ piece = rest.take n
  | .reachedEnd => AllSettled es ∧ (Desk.tape es).read = (Desk.tape es).output
  | .showed last => last = (Desk.tape es).last
  | _ => True

namespace Kept

variable (h : Kept execute es s)

include h

theorem inHand_of_holds {i : Nat} (hat : s.users[i]? = some u) (hu : u.holds = true) : s.inHand = u.inHand := by
  rw [inHand, h.locked i u hat hu, Option.bind_some, hat]
  rfl

omit h in
theorem inHand_act {i : Nat} {users : List User} (hat : s.users[i]? = some u) (hacts : Act s.toShared u d x u')
    (hfree : u'.holds = true → u.holds = true ∨ s.lock = none) (husers : users = s.users.set i u') :
    inHand ⟨x, if u'.holds then some i else if u.holds then none else s.lock, users⟩ =
      if u.holds then u'.inHand else s.inHand := by
  have hself : users[i]? = some u' := by
    rw [husers, List.getElem?_set_self (List.getElem?_eq_some_iff.mp hat).1]
  unfold inHand
  cases hu' : u'.holds with
  | true =>
    simp only [if_true, Option.bind_some, hself, Option.map_some, Option.getD_some]
    cases hu : u.holds with
    | true => rfl
    | false =>
      have hlock := (hfree hu').resolve_left (by rw [hu]; exact Bool.false_ne_true)
      rw [hlock, (hacts.untouched hu).2.2]
      rfl
  | false =>
    cases hu : u.holds with
    | true => exact (User.inHand_of_not_holds hu').symm
    | false =>
      simp only [Bool.false_eq_true, if_false]
      cases hlock : s.lock with
      | none => rfl
      | some j =>
        by_cases hj : i = j
        · subst hj
          simp [hself, hat, User.inHand_of_not_holds hu', User.inHand_of_not_holds hu]
        · simp [husers, List.getElem?_set_ne hj]

theorem behind {e : Option Traffic.Event} (hmoves : Behind s.toShared e x) :
    Kept execute (es ++ (e.map Event.runner).toList) { s with toShared := x } := by
  have hrunner : ofRunner (es ++ (e.map Event.runner).toList) = ofRunner es ++ e.toList := by
    rw [ofRunner_next]
    cases e <;> rfl
  have hold {f : Event} (hf : f ∈ es ++ (e.map Event.runner).toList) (hdid : ∃ i d, f = .did i d) : f ∈ es := by
    refine (List.mem_append.mp hf).resolve_right fun hnew => ?_
    obtain ⟨i, d, rfl⟩ := hdid
    cases e with
    | none => cases hnew
    | some e => cases List.mem_singleton.mp hnew
  have hdevice := hmoves.device_eq
  obtain ⟨hserved, hgone⟩ := hmoves.served h.served
  have hsubmitted : submitted (es ++ (e.map Event.runner).toList) = submitted es := by
    rw [submitted_next]
    cases e <;> exact List.append_nil _
  have hsettled : settled (es ++ (e.map Event.runner).toList) = settled es := by
    rw [settled_next]
    cases e <;> exact List.append_nil _
  have htape : Desk.tape (es ++ (e.map Event.runner).toList) = Desk.tape es := by
    rw [tape_next]
    cases e <;> rfl
  refine {
    served := hrunner ▸ hserved
    watched := fun number w hw => hrunner ▸ hmoves.watched h.served h.watched number w hw
    locked := h.locked
    fits := fun u hu => ?_
    passed := ?_
    known := ?_
    harvested := fun i number outcome hmem => ?_
    gaveUp := fun i number hmem => ?_
    tape := ?_ }
  · rw [hdevice]
    exact h.fits u hu
  · rw [hsubmitted, hsettled, hdevice]
    exact h.passed
  · rw [hsubmitted, hrunner]
    unfold Traffic.accepted
    rw [List.filterMap_append]
    exact h.known.trans (List.sublist_append_left _ _)
  · rw [hrunner]
    exact (h.harvested i number outcome (hold hmem ⟨_, _, rfl⟩)).append _
  · rw [hrunner]
    exact (h.gaveUp i number (hold hmem ⟨_, _, rfl⟩)).append hgone
  · rw [htape, hdevice]
    exact h.tape

theorem length_passed : (submitted es).length ≤ (settled es).length + 1 := by
  have hlength := congrArg List.length h.passed
  rw [List.length_map, List.append_assoc, List.length_append, List.length_append] at hlength
  have hone : s.device.pending.toList.length + s.inHand.length ≤ 1 := by
    cases hu : s.lock.bind (s.users[·]?) with
    | none => simp [inHand, hu]
    | some u =>
      obtain ⟨i, -, hat⟩ := Option.bind_eq_some_iff.mp hu
      have hfits := h.fits u (List.mem_of_getElem? hat)
      have hhand : s.inHand = u.inHand := by rw [inHand, hu]; rfl
      rw [hhand]
      cases u with
      | accepted =>
        have hnone : s.device.pending = none := hfits
        simp [hnone, User.inHand]
      | _ => simp [User.inHand]
  omega

theorem settles_in_order : settled es <+: (submitted es).map Job.number := by
  rw [h.passed, List.append_assoc]
  exact List.prefix_append _ _

theorem harvested_own {i number : Nat} {outcome : Outcome} (hmem : .did i (.harvested number outcome) ∈ es) :
    ∃ job ∈ submitted es, job.number = number ∧ (job, outcome) ∈ Traffic.delivered (ofRunner es) ∧
      outcome = execute job.source := by
  obtain ⟨job, rfl, hdelivered⟩ := h.harvested i number outcome hmem
  obtain ⟨haccepted, houtcome⟩ := h.served.accepted_of_delivered hdelivered
  have hsettled : job.number ∈ settled es := List.mem_filterMap.mpr ⟨_, hmem, rfl⟩
  obtain ⟨job', hjob', hnumber⟩ := List.mem_map.mp (h.settles_in_order.subset hsettled)
  obtain rfl := h.served.eq_of_number (h.known.subset hjob') haccepted hnumber
  exact ⟨job', hjob', rfl, hdelivered, houtcome⟩

theorem allSettled {i : Nat} (hat : s.users[i]? = some u) (hu : u.holds = true)
    (hnone : s.device.pending = none) (hhand : u.inHand = []) : AllSettled es := by
  have hpassed := h.passed
  rw [h.inHand_of_holds hat hu, hhand, hnone, Option.toList_none, List.append_nil, List.append_nil] at hpassed
  exact hpassed.symm

theorem due {i : Nat} {deed : Deed} (hat : s.users[i]? = some u)
    (hacts : Act s.toShared u (some deed) x u') : deed.Due es := by
  obtain ⟨hlast, houtput, hoffset, hread⟩ := h.tape
  obtain ⟨rest, hrest⟩ := hread
  have hdrop : s.device.output.drop s.device.offset = rest := by
    rw [houtput, ← hrest, hoffset, List.drop_left]
  cases hacts with
  | accept => exact h.allSettled hat rfl (h.fits _ (List.mem_of_getElem? hat)) rfl
  | read _ hsettled hmore =>
    obtain ⟨hne, hpiece, -⟩ := Device.next_eq_some hmore
    rw [hdrop] at hne hpiece
    exact ⟨h.allSettled hat rfl hsettled rfl, rest, hrest.symm, hne, hpiece⟩
  | reachEnd _ hsettled hend =>
    have hnil := (Device.next_eq_none hend).1
    rw [hdrop] at hnil
    refine ⟨h.allSettled hat rfl hsettled rfl, ?_⟩
    rw [← hrest, hnil, List.append_nil]
  | show_ => exact hlast
  | _ => trivial

theorem alone {i j : Nat} {v : User} (hat : s.users[i]? = some u) (hj : s.users[j]? = some v) (hij : j ≠ i)
    (hu : u.holds = true) : v.holds = false := by
  cases hv : v.holds with
  | false => rfl
  | true => exact absurd (Option.some.inj ((h.locked j v hj hv).symm.trans (h.locked i u hat hu))) hij

theorem act_locked {i j : Nat} {v : User} (hat : s.users[i]? = some u)
    (hfree : u'.holds = true → u.holds = true ∨ s.lock = none) (hj : (s.users.set i u')[j]? = some v)
    (hv : v.holds = true) : (if u'.holds then some i else if u.holds then none else s.lock) = some j := by
  by_cases hij : j = i
  · subst hij
    rw [List.getElem?_set_self (List.getElem?_eq_some_iff.mp hat).1] at hj
    cases hj
    exact if_pos hv
  · rw [List.getElem?_set_ne (Ne.symm hij)] at hj
    have hlock := h.locked j v hj hv
    have hu : u.holds = false := h.alone hj hat (Ne.symm hij) hv
    have hu' : u'.holds = false := by
      cases hu' : u'.holds with
      | false => rfl
      | true =>
        rcases hfree hu' with hu'' | hnone
        · exact absurd hu'' (by rw [hu]; exact Bool.false_ne_true)
        · exact absurd (hlock.symm.trans hnone) nofun
    simpa [hu, hu'] using hlock

theorem act_fits {i : Nat} {v : User} (hat : s.users[i]? = some u) (hacts : Act s.toShared u d x u')
    (hv : v ∈ s.users.set i u') : v.Fits x.device := by
  obtain ⟨j, hj⟩ := List.getElem?_of_mem hv
  by_cases hij : j = i
  · subst hij
    rw [List.getElem?_set_self (List.getElem?_eq_some_iff.mp hat).1] at hj
    cases hj
    exact hacts.fits (h.fits u (List.mem_of_getElem? hat))
  · rw [List.getElem?_set_ne (Ne.symm hij)] at hj
    cases hu : u.holds with
    | false =>
      rw [hacts.device_eq hu]
      exact h.fits v (List.mem_of_getElem? hj)
    | true => exact User.fits_of_not_holds (h.alone hat hj hij hu) _

theorem act_passed {i : Nat} (hat : s.users[i]? = some u) (hacts : Act s.toShared u d x u')
    (hfree : u'.holds = true → u.holds = true ∨ s.lock = none) :
    (submitted es ++ (d.bind Deed.submitted?).toList).map Job.number =
      settled es ++ (d.bind Deed.settled?).toList ++ x.device.pending.toList ++
        inHand ⟨x, if u'.holds then some i else if u.holds then none else s.lock, s.users.set i u'⟩ := by
  rw [inHand_act hat hacts hfree rfl]
  have hpassed := h.passed
  cases hu : u.holds with
  | true =>
    rw [h.inHand_of_holds hat hu] at hpassed
    have hpasses := hacts.passes (h.fits u (List.mem_of_getElem? hat))
    have hmap : (d.bind Deed.submitted?).toList.map Job.number =
        ((d.bind Deed.submitted?).map Job.number).toList := by
      cases d.bind Deed.submitted? <;> rfl
    rw [List.map_append, hpassed, hmap]
    simp only [if_true, List.append_assoc] at hpasses ⊢
    rw [hpasses]
  | false =>
    obtain ⟨hsub, hset, -⟩ := hacts.untouched hu
    rw [hsub, hset, hacts.device_eq hu]
    simpa using hpassed

theorem act {i : Nat} (hat : s.users[i]? = some u) (hacts : Act s.toShared u d x u')
    (hfree : u'.holds = true → u.holds = true ∨ s.lock = none) :
    Kept execute (es ++ (d.map (Event.did i)).toList) {
      toShared := x
      lock := if u'.holds then some i else if u.holds then none else s.lock
      users := s.users.set i u' } := by
  have hrunner := ofRunner_next es (d.map (Event.did i))
  obtain ⟨hserved, hgone⟩ := hacts.served i h.served
  have hnew {j : Nat} {deed : Deed} (hmem : Event.did j deed ∈ es ++ (d.map (Event.did i)).toList) :
      Event.did j deed ∈ es ∨ d = some deed := by
    refine (List.mem_append.mp hmem).imp_right fun hmem => ?_
    obtain ⟨deed', hd, heq⟩ := Option.map_eq_some_iff.mp (Option.mem_toList.mp hmem)
    cases heq
    exact hd
  have hsubmitted : submitted (es ++ (d.map (Event.did i)).toList) =
      submitted es ++ (d.bind Deed.submitted?).toList := by
    rw [submitted_next]
    cases d <;> rfl
  have hsettled : settled (es ++ (d.map (Event.did i)).toList) = settled es ++ (d.bind Deed.settled?).toList := by
    rw [settled_next]
    cases d <;> rfl
  have htape : Desk.tape (es ++ (d.map (Event.did i)).toList) = d.elim (Desk.tape es) (Desk.tape es).play := by
    rw [tape_next]
    cases d <;> rfl
  refine {
    served := hrunner ▸ hserved
    watched := fun number w hw => ?_
    locked := fun j v => h.act_locked hat hfree
    fits := fun v => h.act_fits hat hacts
    passed := ?_
    known := ?_
    harvested := fun j number outcome hmem => ?_
    gaveUp := fun j number hmem => ?_
    tape := ?_ }
  · rw [hrunner]
    rcases hacts.watch_eq hw with rfl | hw
    · trivial
    · exact (h.watched number w hw).append hgone
  · rw [hsubmitted, hsettled]
    exact h.act_passed hat hacts hfree
  · rw [hsubmitted, hrunner]
    unfold Traffic.accepted
    rw [List.filterMap_append]
    exact h.known.append (submitted_sublist d i)
  · rw [hrunner]
    rcases hnew hmem with hmem | rfl
    · exact (h.harvested j number outcome hmem).append _
    · cases hacts with
      | harvest _ hover => exact Ended.append (h.watched number _ hover) _
  · rw [hrunner]
    rcases hnew hmem with hmem | rfl
    · exact (h.gaveUp j number hmem).append hgone
    · cases hacts with
      | giveUp _ hover => exact Unserved.append (h.watched number _ hover) hgone
  · rw [htape]
    exact hacts.tape h.tape

theorem call (q : Request) :
    Kept execute (es ++ [.did s.users.length (.called q)]) { s with users := s.users ++ [.entering q] } := by
  have hrunner : ofRunner (es ++ [Event.did s.users.length (.called q)]) = ofRunner es := by
    rw [ofRunner, List.filterMap_append]
    exact List.append_nil _
  have hold {i : Nat} {deed : Deed} (hmem : Event.did i deed ∈ es ++ [Event.did s.users.length (.called q)])
      (hne : deed ≠ .called q) : .did i deed ∈ es := by
    refine (List.mem_append.mp hmem).resolve_right fun hnew => ?_
    cases List.mem_singleton.mp hnew
    exact hne rfl
  have hthere {i : Nat} {v : User} (hi : (s.users ++ [User.entering q])[i]? = some v) :
      s.users[i]? = some v ∨ v = .entering q := by
    by_cases hlt : i < s.users.length
    · rw [List.getElem?_append_left hlt] at hi
      exact .inl hi
    · rw [List.getElem?_append_right (Nat.not_lt.mp hlt)] at hi
      exact .inr (List.mem_singleton.mp (List.mem_of_getElem? hi))
  refine {
    served := hrunner ▸ h.served
    watched := hrunner ▸ h.watched
    locked := fun i v hi hv => ?_
    fits := fun v hv => ?_
    passed := ?_
    known := ?_
    harvested := fun i number outcome hmem => hrunner ▸ h.harvested i number outcome (hold hmem nofun)
    gaveUp := fun i number hmem => hrunner ▸ h.gaveUp i number (hold hmem nofun)
    tape := ?_ }
  · rcases hthere hi with hi | rfl
    · exact h.locked i v hi hv
    · cases hv
  · rcases List.mem_append.mp hv with hv | hv
    · exact h.fits v hv
    · rw [List.mem_singleton.mp hv]
      trivial
  · have hhand : inHand { s with users := s.users ++ [.entering q] } = s.inHand := by
      unfold inHand
      cases s.lock with
      | none => rfl
      | some j =>
        rw [Option.bind_some, Option.bind_some]
        cases hj : s.users[j]? with
        | some v => rw [List.getElem?_append_left (List.getElem?_eq_some_iff.mp hj).1, hj]
        | none =>
          cases hj' : (s.users ++ [User.entering q])[j]? with
          | none => rfl
          | some v =>
            rcases hthere hj' with hj' | rfl
            · exact absurd (hj.symm.trans hj') nofun
            · rfl
    have hsubmitted : submitted (es ++ [Event.did s.users.length (.called q)]) = submitted es := by
      rw [submitted, List.filterMap_append]
      exact List.append_nil _
    have hsettled : settled (es ++ [Event.did s.users.length (.called q)]) = settled es := by
      rw [settled, List.filterMap_append]
      exact List.append_nil _
    rw [hhand, hsubmitted, hsettled]
    exact h.passed
  · rw [hrunner, submitted, List.filterMap_append]
    exact (List.append_nil _).symm ▸ h.known
  · rw [Desk.tape, List.foldl_append]
    exact h.tape

theorem step {e : Option Event} (hs : Step s e s') : Kept execute (es ++ e.toList) s' := by
  cases hs with
  | behind hmoves => exact h.behind hmoves
  | call q => exact h.call q
  | act hat hacts hfree => exact h.act hat hacts hfree

theorem step_due {i : Nat} {deed : Deed} (hs : Step s (some (.did i deed)) s') : deed.Due es := by
  generalize he : some (Event.did i deed) = e at hs
  cases hs with
  | @behind e _ _ => cases e <;> cases he
  | call q =>
    cases he
    trivial
  | @act _ _ _ d _ hat hacts _ =>
    cases d with
    | none => cases he
    | some d =>
      cases he
      exact h.due hat hacts

end Kept

theorem Kept.start (execute : Bytes → Outcome) (depth : Nat) (held : Bool) :
    Kept execute [] { runner := { execute, depth, held } } where
  served := .start execute depth held
  watched := nofun
  locked := nofun
  fits := nofun
  passed := rfl
  known := .slnil
  harvested := nofun
  gaveUp := nofun
  tape := ⟨rfl, rfl, rfl, List.nil_prefix⟩

namespace Run

theorem kept (h : Run s₀ es s) (h₀ : Kept execute [] s₀) : Kept execute es s := by
  induction h with
  | start => exact h₀
  | next _ hs ih => exact ih.step hs

theorem of_prefix (h : Run s₀ es s) {before : List Event} (hbefore : before <+: es) :
    ∃ s', Run s₀ before s' := by
  induction h with
  | start =>
    rw [List.prefix_nil.mp hbefore]
    exact ⟨s₀, .start⟩
  | @next es s s' e hr hs ih =>
    cases e with
    | none =>
      rw [Option.toList_none, List.append_nil] at hbefore
      exact ih hbefore
    | some e =>
      rcases List.prefix_concat_iff.mp hbefore with rfl | hbefore
      · exact ⟨s', hr.next hs⟩
      · exact ih hbefore

theorem due (h : Run s₀ es s) (h₀ : Kept execute [] s₀) {before : List Event} {i : Nat} {deed : Deed}
    (hdid : before ++ [.did i deed] <+: es) : deed.Due before := by
  induction h with
  | start => simp at hdid
  | @next es s s' e hr hs ih =>
    cases e with
    | none =>
      rw [Option.toList_none, List.append_nil] at hdid
      exact ih hdid
    | some e =>
      rcases List.prefix_concat_iff.mp hdid with heq | hdid
      · obtain ⟨rfl, hlast⟩ := List.append_inj' heq rfl
        cases List.singleton_inj.mp hlast
        exact (hr.kept h₀).step_due hs
      · exact ih hdid

end Run

/-- What the users of a device can rely on, whatever turns they and the runner have taken. -/
structure Orderly (execute : Bytes → Outcome) (es : List Event) (s : Desk) : Prop where
  -- Programs are settled in the order in which they were accepted, and at most one is not settled yet,
  single : ∀ before, before <+: es → settled before <+: (submitted before).map Job.number ∧
    (submitted before).length ≤ (settled before).length + 1
  -- each once.
  once : (settled es).Nodup
  -- What is harvested is the outcome of the program.
  own : ∀ i number outcome, .did i (.harvested number outcome) ∈ es →
    ∃ job ∈ submitted es, job.number = number ∧ (job, outcome) ∈ Traffic.delivered (ofRunner es) ∧
      outcome = execute job.source
  -- Only a program that is never executed is given up.
  unserved : ∀ i number, .did i (.gaveUp number) ∈ es →
    s.runner.worker = .gone ∧ ∀ job ∈ Traffic.began (ofRunner es), job.number ≠ number
  -- All earlier programs are settled when one is accepted,
  ready : ∀ before i job atOnce, before ++ [.did i (.submitted job atOnce)] <+: es → AllSettled before
  -- and when something is read, which is the next piece of the output.
  read : ∀ before i n piece, before ++ [.did i (.read n piece)] <+: es → AllSettled before ∧
    ∃ rest, (tape before).output = (tape before).read ++ rest ∧ rest ≠ [] ∧ piece = rest.take n
  -- The end is reached when all of the output was read.
  reachedEnd : ∀ before i, before ++ [.did i .reachedEnd] <+: es →
    AllSettled before ∧ (tape before).read = (tape before).output
  showed : ∀ before i last, before ++ [.did i (.showed last)] <+: es → last = (tape before).last
  -- The device has the outcome that was harvested last, its output, and how much of it was read.
  device : (tape es).Fits s.device

/-- A device and its users can rely on each other. -/
theorem Run.serves_in_order {execute : Bytes → Outcome} {depth : Nat} {held : Bool} {es : List Event} {s : Desk}
    (h : Run { runner := { execute, depth, held } } es s) : Orderly execute es s := by
  have hstart := Kept.start execute depth held
  have hkept := h.kept hstart
  have hnumbers : ((submitted es).map Job.number).Nodup :=
    (hkept.known.map Job.number).nodup hkept.served.nodup_numbers
  refine {
    single := fun before hbefore => ?_
    once := ?_
    own := fun i number outcome hmem => ?_
    unserved := hkept.gaveUp
    ready := fun before i job atOnce hdid => h.due hstart hdid
    read := fun before i n piece hdid => h.due hstart hdid
    reachedEnd := fun before i hdid => h.due hstart hdid
    showed := fun before i last hdid => h.due hstart hdid
    device := hkept.tape }
  · obtain ⟨s', h'⟩ := h.of_prefix hbefore
    exact ⟨(h'.kept hstart).settles_in_order, (h'.kept hstart).length_passed⟩
  · rw [hkept.passed, List.append_assoc] at hnumbers
    exact hnumbers.of_append_left
  · exact hkept.harvested_own hmem

def keptForLater : List Event :=
  [.did 0 (.called .open_), .did 0 .opened, .did 1 (.called (.write [1, 2])),
    .did 1 (.submitted ⟨0, [1, 2]⟩ false), .did 1 (.wrote 2), .did 2 (.called (.read 1)),
    .did 2 (.refused .canceled), .runner (.began ⟨0, [1, 2]⟩), .did 3 (.called .close), .did 3 .closed,
    .runner (.ended ⟨0, [1, 2]⟩ (Traffic.echo [1, 2])), .runner (.recorded ⟨0, [1, 2]⟩ (Traffic.echo [1, 2])),
    .runner (.delivered ⟨0, [1, 2]⟩ (Traffic.echo [1, 2])), .did 4 (.called .open_), .did 4 .opened,
    .did 5 (.called (.read 1)), .did 5 (.harvested 0 (Traffic.echo [1, 2])), .did 5 (.read 1 [1]),
    .did 6 (.called (.read 8)), .did 6 (.read 8 [2]), .did 7 (.called (.read 8)), .did 7 .reachedEnd]

theorem run_keptForLater : ∃ s, Run { runner := { execute := Traffic.echo, depth := 1 } } keptForLater s := by
  have h₀ : Run { runner := { execute := Traffic.echo, depth := 1 } } _ _ := .start
  have hopen := h₀.next (.call _ .open_)
    |>.next (.act (i := 0) rfl (.enter _ _) fun _ => .inr rfl)
    |>.next (.act (i := 0) rfl (.open_ rfl) nofun)
  have hwrite := hopen.next (.call _ (.write [1, 2]))
    |>.next (.act (i := 1) rfl (.enter _ _) fun _ => .inr rfl)
    |>.next (.act (i := 1) rfl (.hand rfl rfl) fun _ => .inl rfl)
    |>.next (.act (i := 1) rfl (.offer rfl) fun _ => .inl rfl)
    |>.next (.act (i := 1) rfl (.accept rfl) fun _ => .inl rfl)
    |>.next (.act (i := 1) rfl (.wrote _ _ _) nofun)
  have hread := hwrite.next (.call _ (.read 1))
    |>.next (.act (i := 2) rfl (.enter _ _) fun _ => .inr rfl)
    |>.next (.act (i := 2) rfl (.wait ⟨nofun, nofun, nofun⟩ rfl rfl) nofun)
    |>.next (.act (i := 2) rfl (.giveUpWaiting _ (.inl rfl)) nofun)
  have hclose := hread.next (.behind (.take rfl rfl))
    |>.next (.call _ .close)
    |>.next (.act (i := 3) rfl (.enter _ _) fun _ => .inr rfl)
    |>.next (.act (i := 3) rfl (.close rfl) nofun)
  have hend := hclose.next (.behind (.proceed rfl))
    |>.next (.behind (.proceed rfl))
    |>.next (.behind (.proceed rfl))
    |>.next (.behind (@Behind.receive _ 0 _ (.inl rfl) rfl))
  have hopen' := hend.next (.call _ .open_)
    |>.next (.act (i := 4) rfl (.enter _ _) fun _ => .inr rfl)
    |>.next (.act (i := 4) rfl (.open_ rfl) nofun)
  have hread₁ := hopen'.next (.call _ (.read 1))
    |>.next (.act (i := 5) rfl (.enter _ _) fun _ => .inr rfl)
    |>.next (.act (i := 5) rfl (.wait ⟨nofun, nofun, nofun⟩ rfl rfl) nofun)
    |>.next (.act (i := 5) rfl (.wake rfl) nofun)
    |>.next (.act (i := 5) rfl (.reenter _ _ _) fun _ => .inr rfl)
    |>.next (.act (i := 5) rfl (.harvest rfl rfl) fun _ => .inl rfl)
    |>.next (.act (i := 5) rfl (.read rfl rfl rfl) nofun)
  have hread₂ := hread₁.next (.call _ (.read 8))
    |>.next (.act (i := 6) rfl (.enter _ _) fun _ => .inr rfl)
    |>.next (.act (i := 6) rfl (.read rfl rfl rfl) nofun)
  have hread₃ := hread₂.next (.call _ (.read 8))
    |>.next (.act (i := 7) rfl (.enter _ _) fun _ => .inr rfl)
    |>.next (.act (i := 7) rfl (.reachEnd rfl rfl rfl) nofun)
  exact ⟨_, hread₃⟩

theorem Run.serves_in_order_keptForLater : ∃ s, Run { runner := { execute := Traffic.echo, depth := 1 } } keptForLater
    s ∧
    Orderly Traffic.echo keptForLater s := by
  obtain ⟨s, h⟩ := run_keptForLater
  exact ⟨s, h, h.serves_in_order⟩

end Desk

end Lox
