import Lox.Proofs.Device.Orderly

namespace Lox.Desk

variable {s₀ s : Desk} {h h' : Host} {u : User} {x x' : Shared} {q : Request} {users : List User}
  {watch : Nat → Option Watch}

def Reaches (s₀ s : Desk) : Prop :=
  ∃ es, Run s₀ es s

namespace Reaches

theorem next {s' : Desk} {e : Option Event} (hs : Reaches s₀ s) (hstep : Step s e s') : Reaches s₀ s' := by
  obtain ⟨es, hrun⟩ := hs
  exact ⟨_, hrun.next hstep⟩

theorem workFor (fuel : Nat) (hs : Reaches s₀ s) : Reaches s₀ { s with runner := s.runner.workFor fuel } := by
  induction fuel generalizing s with
  | zero => exact hs
  | succ fuel ih =>
    unfold Runner.workFor
    cases hgoes : s.runner.proceed? with
    | some r => exact ih (hs.next (.behind (.proceed hgoes)))
    | none =>
      cases htakes : s.runner.take? with
      | none => exact hs
      | some r =>
        have hrunning : ∃ job, r.worker = .running job := by
          unfold Runner.take? at htakes
          split at htakes
          · cases htakes
            exact ⟨_, rfl⟩
          · cases htakes
        obtain ⟨job, hrunning⟩ := hrunning
        exact ih (hs.next (.behind (.take htakes hrunning)))

theorem work (hs : Reaches s₀ s) : Reaches s₀ { s with runner := s.runner.work } :=
  hs.workFor _

theorem enter (hs : Reaches s₀ ⟨x, none, users⟩) (q : Request) :
    Reaches s₀ ⟨x, some users.length, users ++ [.inside q]⟩ := by
  have hentered := (hs.next (.call _ q)).next
    (.act (i := users.length) (u := .entering q) (by simp) (.enter _ _) fun _ => .inr rfl)
  simpa [User.holds] using hentered

theorem act {u' : User} {d : Option Deed} (hs : Reaches s₀ ⟨x, some users.length, users ++ [u]⟩)
    (hacts : Act x u d x' u') (hu : u.holds = true) (hu' : u'.holds = true) :
    Reaches s₀ ⟨x', some users.length, users ++ [u']⟩ := by
  have hnext := hs.next (.act (i := users.length) (u := u) (by simp) hacts fun _ => .inl hu)
  simpa [hu'] using hnext

theorem leave {u' : User} {d : Option Deed} (hs : Reaches s₀ ⟨x, some users.length, users ++ [u]⟩)
    (hacts : Act x u d x' u') (hu : u.holds = true) (hu' : u'.holds = false) :
    Reaches s₀ ⟨x', none, users ++ [u']⟩ := by
  have hnext := hs.next (.act (i := users.length) (u := u) (by simp) hacts fun _ => .inl hu)
  simpa [hu, hu'] using hnext

theorem wait {u' : User} {d : Option Deed} (hs : Reaches s₀ ⟨x, none, users ++ [u]⟩)
    (hacts : Act x u d x' u') (hu : u.holds = false) (hu' : u'.holds = false) :
    Reaches s₀ ⟨x', none, users ++ [u']⟩ := by
  have hnext := hs.next (.act (i := users.length) (u := u) (by simp) hacts fun _ => .inr rfl)
  simpa [hu, hu'] using hnext

theorem comeBack (number : Nat) (hs : Reaches s₀ ⟨x, none, users ++ [.returning q number]⟩) :
    Reaches s₀ ⟨x, some users.length, users ++ [.back q number]⟩ := by
  have hnext := hs.next
    (.act (i := users.length) (u := .returning q number) (by simp) (.reenter _ _ _) fun _ => .inr rfl)
  simpa [User.holds] using hnext

end Reaches

def Reached (s₀ : Desk) (h : Host) : Prop :=
  ∃ watch users, Reaches s₀ ⟨⟨h.runner, h.device, watch⟩, none, users⟩ ∧
    ∀ number, h.device.pending = some number → watch number = some .waiting

def Serving (s₀ : Desk) (q : Request) (h : Host) : Prop :=
  h.device.isOpen = true ∧ h.device.pending = none ∧
    ∃ watch users, Reaches s₀ ⟨⟨h.runner, h.device, watch⟩, some users.length, users ++ [.inside q]⟩

def after {α : Type} (act : HostM α) (h : Host) : Host :=
  match act h with
  | .ok _ h | .error _ h => h

theorem Reached.settle (hr : Reached s₀ h) (hq : q ≠ .open_ ∧ q ≠ .close ∧ q ≠ .result)
    {ended : Option Refusal} (hended : ∀ reason, ended = some reason → Traffic.Ending reason) :
    match HostM.settle ended h with
    | .ok _ h' => Serving s₀ q h'
    | .error _ h' => Reached s₀ h' := by
  obtain ⟨watch, users, hs, hwatched⟩ := hr
  have hentered := hs.enter q
  unfold HostM.settle
  simp only [bind, EStateM.bind, run_get]
  cases hopen : h.device.isOpen with
  | false =>
    exact ⟨watch, _, hentered.leave (.notOpen ⟨hq.1, hq.2.2⟩ hopen) rfl rfl, hwatched⟩
  | true =>
    cases hpending : h.device.pending with
    | none => exact ⟨hopen, hpending, watch, users, hentered⟩
    | some number =>
      have hwaits := hentered.leave (.wait hq hopen hpending) rfl rfl
      have hwatch := hwatched number hpending
      cases houtcome : h.runner.outcome? number with
      | some outcome =>
        have hcame := hwaits.next (.behind (@Behind.receive _ number _ (.inl hwatch) houtcome))
        have hover : Function.update watch number (some (.ended (.ok outcome))) number =
            some (.ended (.ok outcome)) := Function.update_self ..
        have hback := (hcame.wait (.wake hover) rfl rfl).comeBack
        have hharvested := hback.act (.harvest hpending hover) rfl rfl
        simp only [houtcome]
        exact ⟨hopen, rfl, _, _, hharvested⟩
      | none =>
        simp only [houtcome]
        cases hstopped : h.runner.isStopped with
        | true =>
          -- the watch sees that the worker is gone, and finds no outcome
          have hnoticed := hwaits.next (.behind (@Behind.notice _ number hwatch hstopped))
          have hlooking : Function.update watch number (some .looking) number = some .looking :=
            Function.update_self ..
          have hmissed := hnoticed.next (.behind (@Behind.miss _ number hlooking houtcome))
          have hover : Function.update (Function.update watch number (some .looking)) number
              (some (.ended (.error .stopped))) number = some (.ended (.error .stopped)) := Function.update_self ..
          have hback := (hmissed.wait (.wake hover) rfl rfl).comeBack
          exact ⟨_, _, hback.leave (.giveUp hpending hover) rfl rfl, by rintro _ ⟨⟩⟩
        | false =>
          cases hended' : ended with
          | none => exact ⟨watch, _, hwaits, hwatched⟩
          | some reason =>
            exact ⟨watch, _, hwaits.wait (.giveUpWaiting _ (hended reason hended')) rfl rfl, hwatched⟩

namespace Reached

theorem openDevice (hr : Reached s₀ h) : Reached s₀ (after HostM.openDevice h) := by
  obtain ⟨watch, users, hs, hwatched⟩ := hr
  have hentered := hs.enter .open_
  unfold after HostM.openDevice
  simp only [bind, EStateM.bind, run_get]
  cases hopen : h.device.isOpen with
  | true => exact ⟨watch, _, hentered.leave (.busy hopen) rfl rfl, hwatched⟩
  | false => exact ⟨watch, _, hentered.leave (.open_ hopen) rfl rfl, hwatched⟩

theorem closeDevice (hr : Reached s₀ h) : Reached s₀ (after HostM.closeDevice h) := by
  obtain ⟨watch, users, hs, hwatched⟩ := hr
  have hentered := hs.enter .close
  unfold after HostM.closeDevice
  simp only [bind, EStateM.bind, run_get]
  cases hopen : h.device.isOpen with
  | true => exact ⟨watch, _, hentered.leave (.close hopen) rfl rfl, hwatched⟩
  | false => exact ⟨watch, _, hentered.leave (.notOpen ⟨nofun, nofun⟩ hopen) rfl rfl, hwatched⟩

variable {ended : Option Refusal}

theorem read (hr : Reached s₀ h) (hended : ∀ reason, ended = some reason → Traffic.Ending reason) (n : Nat) :
    Reached s₀ (after (HostM.read ended n) h) := by
  have hsettle := hr.settle (q := .read n) ⟨nofun, nofun, nofun⟩ hended
  unfold after HostM.read
  simp only [bind, EStateM.bind]
  cases hresult : HostM.settle ended h with
  | error reason h' =>
    rw [hresult] at hsettle
    exact hsettle
  | ok _ h' =>
    rw [hresult] at hsettle
    obtain ⟨hopen, hnone, watch, users, hs⟩ := hsettle
    cases hnext : h'.device.next n with
    | mk piece device =>
      have hdevice : (h'.device.next n).2 = device := by rw [hnext]
      have hpending : device.pending = none := by
        cases piece with
        | some piece => rw [(Device.next_eq_some hnext).2.2]; exact hnone
        | none => rw [(Device.next_eq_none hnext).2]; exact hnone
      have hleft : Reaches s₀ ⟨⟨h'.runner, device, watch⟩, none, users ++ [User.left]⟩ := by
        cases piece with
        | some piece => exact hs.leave (.read hopen hnone hnext) rfl rfl
        | none => exact hs.leave (.reachEnd hopen hnone hnext) rfl rfl
      refine ⟨watch, _, hdevice.symm ▸ hleft, fun number hnumber => ?_⟩
      have hsome : (h'.device.next n).2.pending = some number := hnumber
      rw [hdevice, hpending] at hsome
      cases hsome

theorem write (hr : Reached s₀ h) (hended : ∀ reason, ended = some reason → Traffic.Ending reason)
    (source : Bytes) : Reached s₀ (after (HostM.write ended source) h) := by
  have hsettle := hr.settle (q := .write source) ⟨nofun, nofun, nofun⟩ hended
  unfold after HostM.write
  simp only [bind, EStateM.bind]
  cases hresult : HostM.settle ended h with
  | error reason h' =>
    rw [hresult] at hsettle
    exact hsettle
  | ok _ h' =>
    rw [hresult] at hsettle
    obtain ⟨hopen, hnone, watch, users, hs⟩ := hsettle
    have hwatched (number : Nat) (hnumber : h'.device.pending = some number) : watch number = some .waiting :=
      absurd (hnone.symm.trans hnumber) nofun
    have hhanding := hs.act (.hand hopen hnone) rfl rfl
    unfold HostM.onRunner RunnerM.submit
    simp only [bind, EStateM.bind, run_get]
    cases hstopping : h'.runner.stopping with
    | true => exact ⟨watch, _, hhanding.leave (.refuse (.inl rfl) hstopping) rfl rfl, hwatched⟩
    | false =>
      have hoffering := hhanding.act (.offer hstopping) rfl rfl
      cases hended' : ended with
      | some reason =>
        exact ⟨watch, _, hoffering.leave (.withdraw _ (hended reason hended')) rfl rfl, hwatched⟩
      | none =>
        cases haccept : h'.runner.accept? source with
        | none =>
          -- there is no room, and the device is locked until the user gives up
          exact ⟨watch, _, hoffering.leave (.withdraw _ (.inl rfl)) rfl rfl, hwatched⟩
        | some taken =>
          have haccepted := (hoffering.act (.accept haccept) rfl rfl).work
          have hwrote := haccepted.leave (.wrote _ _ _) rfl rfl
          refine ⟨_, _, hwrote, fun number hnumber => ?_⟩
          cases hnumber
          exact Function.update_self ..

theorem readAll (hr : Reached s₀ h) : Reached s₀ (after HostM.readAll h) := by
  have hsettle (n : Nat) := hr.settle (q := .read n) ⟨nofun, nofun, nofun⟩ (show ∀ reason, none = some reason →
      Traffic.Ending reason from nofun)
  unfold after HostM.readAll
  simp only [bind, EStateM.bind]
  cases hresult : HostM.settle none h with
  | error reason h' =>
    rw [hresult] at hsettle
    exact hsettle 0
  | ok _ h' =>
    rw [hresult] at hsettle
    obtain ⟨hopen, hnone, watch, users, hs⟩ := hsettle h'.device.output.length
    have hwatched (number : Nat) (hnumber : h'.device.pending = some number) : watch number = some .waiting :=
      absurd (hnone.symm.trans hnumber) nofun
    cases hnext : h'.device.next h'.device.output.length with
    | mk piece device =>
      cases piece with
      | none =>
        obtain ⟨-, rfl⟩ := Device.next_eq_none hnext
        exact ⟨watch, _, hs.leave (.reachEnd hopen hnone hnext) rfl rfl, hwatched⟩
      | some piece =>
        obtain ⟨-, hpiece, rfl⟩ := Device.next_eq_some hnext
        have hrest : h'.device.output.drop (h'.device.offset + piece.length) = [] := by
          rw [hpiece, List.length_take, List.length_drop, List.drop_eq_nil_iff]
          omega
        have hread := (hs.leave (.read hopen hnone hnext) rfl rfl).enter (.read 1)
        have hend : Device.next { h'.device with offset := h'.device.offset + piece.length } 1 =
            (none, { h'.device with offset := 0 }) := by
          unfold Device.next
          simp only [hrest]
        exact ⟨watch, _, hread.leave (.reachEnd hopen hnone hend) rfl rfl, hwatched⟩

theorem onRunner {α : Type} {act : RunnerM α} (hr : Reached s₀ h)
    (hact : ∀ s : Desk, Reaches s₀ s → Reaches s₀ { s with runner := Traffic.after act s.runner }) :
    Reached s₀ (after (HostM.onRunner act) h) := by
  obtain ⟨watch, users, hs, hwatched⟩ := hr
  have hreached := hact _ hs
  unfold Traffic.after at hreached
  unfold after HostM.onRunner
  dsimp only at hreached ⊢
  cases hresult : act h.runner with
  | ok a r =>
    rw [hresult] at hreached
    exact ⟨watch, users, hreached, hwatched⟩
  | error e r =>
    rw [hresult] at hreached
    exact ⟨watch, users, hreached, hwatched⟩

theorem submit (hr : Reached s₀ h) (ended : Option Refusal) (source : Bytes) :
    Reached s₀ (after (HostM.onRunner (RunnerM.submit ended source)) h) := by
  refine hr.onRunner fun s hs => ?_
  unfold Traffic.after RunnerM.submit
  simp only [bind, EStateM.bind, run_get]
  cases s.runner.stopping with
  | true => exact hs
  | false =>
    cases ended with
    | some reason => exact hs
    | none =>
      cases haccept : s.runner.accept? source with
      | none => exact hs
      | some taken => exact (hs.next (.behind (.submit 0 haccept))).work

theorem stop (hr : Reached s₀ h) : Reached s₀ (after (HostM.onRunner RunnerM.stop) h) := by
  refine hr.onRunner fun s hs => ?_
  have hasked : Reaches s₀ { s with runner := s.runner.askToStop } := hs.next (.behind (.askToStop _))
  have hwork := hasked.work
  change Reaches s₀ { s with runner := s.runner.askToStop.work.leave?.getD s.runner.askToStop.work }
  cases hleaves : s.runner.askToStop.work.leave? with
  | none => exact hwork
  | some r => exact hwork.next (.behind (.leave hleaves))

theorem release (hr : Reached s₀ h) : Reached s₀ (after (HostM.onRunner RunnerM.release) h) :=
  hr.onRunner fun s hs =>
    have hreleased : Reaches s₀ { s with runner := { s.runner with held := false } } :=
      hs.next (.behind (.release _))
    hreleased.work

end Reached

end Lox.Desk
