import AdamOS.Display.TerminalWindow

/-! A window holds the pid of the process that created it. Ctrl+C tells the window list which
process dies; exit and kill do not. -/
namespace AdamOS.Desktop
open AdamOS.Lifecycle AdamOS.Process AdamOS.Scheduler AdamOS.Transition AdamOS.Windows
variable {c : DesktopConfig} {d d' : System}

def WindowsOwned (d : System) : Prop :=
  ∀ w ∈ d.windows.windows, w.pid = 0 ∨ ∃ p ∈ d.sched.procs, p.pid = w.pid

/- No window of a process has the pid; the windows of the kernel have pid 0. -/
def Windowless (ws : WindowManager) (pid : Nat) : Prop :=
  ∀ w ∈ ws.windows, w.pid ≠ 0 → w.pid ≠ pid

instance (ws : WindowManager) (pid : Nat) : Decidable (Windowless ws pid) :=
  inferInstanceAs (Decidable (∀ w ∈ ws.windows, _))

def KillsOnly (P : Nat → Prop) (s : Sched) (ev : Lifecycle.Event) : Prop :=
  Calls ev .kill → ¬(ev.regs.ebx = 1 ∨ ev.regs.ebx = 2) →
    (∀ p ∈ s.procs, p.addr = s.current → p.pid ≠ ev.regs.ebx) → P ev.regs.ebx

instance (P : Nat → Prop) [DecidablePred P] (s : Sched) (ev : Lifecycle.Event) :
    Decidable (KillsOnly P s ev) := inferInstanceAs (Decidable (_ → _))

/- Processes are taken out of the list only after their windows. -/
def OwnersSpared (d : System) : Input → Prop
  | .mouse _ => True
  | .entry ev _ =>
    KillsOnly (Windowless d.windows) d.sched (seen d ev) ∧
      WhenBurying (fun _ z => Windowless d.windows z.pid) d.sched (seen d ev)

instance (d : System) : (i : Input) → Decidable (OwnersSpared d i)
  | .mouse _ => .isTrue trivial
  | .entry .. => inferInstanceAs (Decidable (_ ∧ _))

/-! ### Processes that stay listed -/

section Stays
variable {s t u : Sched} {ev : Lifecycle.Event} {p : Pcb}

theorem listed_of_map {F : Pcb → Pcb} (hp : t.procs = s.procs.map F)
    (hF : ∀ q ∈ s.procs, (F q).pid = q.pid) (hmem : p ∈ s.procs) : ∃ q ∈ t.procs, q.pid = p.pid :=
  ⟨F p, hp ▸ List.mem_map_of_mem hmem, hF p hmem⟩

theorem quiet_stays (h : Quiet s t) (hmem : p ∈ s.procs) : ∃ q ∈ t.procs, q.pid = p.pid := by
  obtain ⟨f, hp, hf⟩ := h.procs
  exact listed_of_map hp (fun q _ => by rw [hf q]) hmem

theorem schedule_stays {out : Outcome} (hs : Sane s)
    (hg : WhenBurying (fun _ z => z.pid ≠ p.pid) s ev) (he : enters s ev = some u)
    (h : updateScheduler ev.env.dyingParent ev.regs u = some out) (hmem : p ∈ s.procs) :
    ∃ q ∈ out.sched.procs, q.pid = p.pid := by
  obtain ⟨cur, f, hent⟩ := enters_spec hs.listed he
  have hlu := hent.listed hs.listed
  have haddr := onAddr_field Pcb.addr f hent.caller.keeps.addr s.current
  have hpid := onAddr_field Pcb.pid f hent.caller.keeps.pid s.current
  obtain ⟨hround, -⟩ := updateScheduler_round hlu h
  obtain ⟨gone, F, hps, hF, hgone, -⟩ := round_moved hlu hround
  have hpu : onAddr s.current f p ∈ u.procs := hent.procs ▸ List.mem_map_of_mem hmem
  have hkept : gone ≠ some (onAddr s.current f p).addr := by
    intro hg'
    obtain ⟨z, hz, hza, hzz, hzk, g, hgm, hga, hgz⟩ := hgone _ hg'
    have hgp := addr_inj hlu.nodup hgm hpu hga
    refine hg u he z hz hza hzz hzk ?_
    rw [← hgz, hgp, hpid]
  refine ⟨F (onAddr s.current f p), ?_, (hF _ hpu).pid.trans (hpid p)⟩
  rw [hps]
  exact List.mem_map_of_mem (List.mem_filter.mpr ⟨hpu, decide_eq_true hkept⟩)

theorem kill_stays {r : Removal} (hs : Sane s) (hc : Calls ev .kill)
    (hg : KillsOnly (fun pid => p.pid ≠ pid) s ev) (h : Removed ev.regs.ebx s r)
    (hmem : p ∈ s.procs) : ∃ q ∈ r.sched.procs, q.pid = p.pid := by
  cases h with
  | refused => exact ⟨p, hmem, rfl⟩
  | self => exact listed_of_map rfl (fun q _ => onAddr_setStatus_pid ..) hmem
  | absent _ _ _ _ _ hf => exact listed_of_map rfl (fun q hq => (hf q hq).pid) hmem
  | @gone cur g f hp hcm ha hpid hgm hgp hf =>
    have hcur : ∀ c ∈ s.procs, c.addr = s.current → c.pid ≠ ev.regs.ebx :=
      hs.listed.current_of_mem hcm ha hpid
    have hne : p.addr ≠ g.addr := by
      intro he
      refine hg hc hp hcur ?_
      rw [addr_inj hs.listed.nodup hmem hgm he, hgp]
    exact ⟨f p, List.mem_map_of_mem (List.mem_filter.mpr ⟨hmem, decide_eq_true hne⟩), (hf p hmem).pid⟩

/-- A process leaves the list by a kill of its pid or as the ZOMBIE that is given up. -/
theorem step_stays (hs : Sane s) (h : Lifecycle.step s ev = some t) (hmem : p ∈ s.procs)
    (hk : KillsOnly (fun pid => p.pid ≠ pid) s ev)
    (hb : WhenBurying (fun _ z => z.pid ≠ p.pid) s ev) : ∃ q ∈ t.procs, q.pid = p.pid := by
  obtain ⟨_, _, heff⟩ := step_effect hs.listed h
  cases heff with
  | quiet hq => exact quiet_stays hq hmem
  | schedule he hu => exact schedule_stays hs hb he hu hmem
  | fork _ _ hp =>
    rw [hp]
    exact ⟨p, List.mem_append_left _ hmem, rfl⟩
  | kill hc hr => exact kill_stays hs hc hk hr hmem
  | interrupt _ _ hint =>
    cases sigintForeground_cases hs.listed hint with
    | inl hq => exact quiet_stays hq hmem
    | inr hint => exact listed_of_map hint.procs (fun q _ => by simp) hmem
  | wake _ hq hw =>
    cases stdinWakeProcess_cases (hq.sane hs).listed hw with
    | inl he => exact he ▸ quiet_stays hq hmem
    | inr hd =>
      obtain ⟨a, w, hd⟩ := hd
      obtain ⟨q, hq', he⟩ := quiet_stays hq hmem
      obtain ⟨q', hq'', he'⟩ := listed_of_map hd.procs (fun q _ => by simp) hq'
      exact ⟨q', hq'', he'.trans he⟩

end Stays

/-! ### Steps and runs -/

theorem changes_owned {ev : Lifecycle.Event} {g : Graphics} {m : Mouse} {s : Sched}
    {ws ws' : WindowManager} (h : Changes ev g m s ws ws') {τ : Tag} (hτ : τ ∈ tags ws') :
    τ ∈ tags ws ∨ Calls ev .createWindow ∧ ∃ p ∈ s.procs, p.pid = τ.pid := by
  cases h with
  | same he => exact .inl (he ▸ hτ)
  | tick => exact .inl ((updateWindow_tags _ _).subset hτ)
  | interrupt => exact .inl ((removeWindowProcess_tags _ _).subset hτ)
  | destroy => exact .inl ((removeWindow_tags _ _).subset hτ)
  | @create cur ws' hcall hcur hw =>
    obtain ⟨-, rfl⟩ := wmCreateWindow_cases hw
    unfold tags at hτ
    dsimp only at hτ
    split at hτ
    · exact .inl hτ
    · rw [List.map_append, List.map_singleton] at hτ
      rcases List.mem_append.mp hτ with hτ | hτ
      · exact .inl hτ
      · rw [List.mem_singleton.mp hτ]
        exact .inr ⟨hcall, cur, (Sched.deref_mem hcur).1, rfl⟩

structure OwnersListed (d : System) : Prop where
  sane : Sane d.sched
  owned : ∀ τ ∈ tags d.windows, τ.pid = 0 ∨ ∃ p ∈ d.sched.procs, p.pid = τ.pid

theorem boot_ownersListed (c : DesktopConfig) : OwnersListed (bootSystem c) := by
  refine ⟨boot_sane c.boot, fun τ hτ => .inl ?_⟩
  rw [List.mem_singleton.mp hτ]
  rfl

theorem Windowless.ne {ws : WindowManager} {pid : Nat} (h : Windowless ws pid) {τ : Tag}
    (hτ : τ ∈ tags ws) (h0 : τ.pid ≠ 0) : τ.pid ≠ pid := by
  obtain ⟨w, hw, rfl⟩ := List.mem_map.mp hτ
  exact h w hw h0

theorem create_stays {s t : Sched} {ev : Lifecycle.Event} {p : Pcb} (hs : Sane s)
    (hc : Calls ev .createWindow) (h : Lifecycle.step s ev = some t) (hmem : p ∈ s.procs) :
    ∃ q ∈ t.procs, q.pid = p.pid := by
  obtain ⟨cur, -, -, hcur⟩ := currentProcess_eq hs.listed
  have hno : enters s ev = none := by
    rw [enters_syscall hcur hc.1]
    simp only [hc.2]
  refine step_stays hs h hmem (fun hk => absurd hk (not_calls hc (by decide))) fun u hu => ?_
  rw [hno] at hu
  cases hu

theorem OwnersListed.step {i : Input} (h : OwnersListed d) (hg : OwnersSpared d i)
    (hs : systemStep d i = some d') : OwnersListed d' := by
  cases i with
  | mouse m =>
    cases hs
    exact ⟨h.sane, h.owned⟩
  | entry ev g =>
    obtain ⟨hkill, hbury⟩ := hg
    obtain ⟨hstep, hw, -⟩ := systemStep_entry hs
    refine ⟨step_sane h.sane hstep, fun τ hτ => ?_⟩
    by_cases h0 : τ.pid = 0
    · exact .inl h0
    refine .inr ?_
    rcases changes_owned hw hτ with hold | ⟨hcall, p, hp, hpid⟩
    · obtain ⟨p, hp, hpid⟩ := (h.owned τ hold).resolve_left h0
      obtain ⟨q, hq, he⟩ := step_stays h.sane hstep hp
        (fun hc hn hcur => hpid ▸ (hkill hc hn hcur).ne hold h0)
        fun u hu z hz hza hzz hzk => hpid ▸ ((hbury u hu z hz hza hzz hzk).ne hold h0).symm
      exact ⟨q, hq, he.trans hpid⟩
    · obtain ⟨q, hq, he⟩ := create_stays h.sane hcall hstep hp
      exact ⟨q, hq, he.trans hpid⟩

/-- As long as a process leaves the list only after its windows, every window has an owner. -/
theorem windows_owned (hr : Reach systemStep OwnersSpared (bootSystem c) d) : WindowsOwned d := by
  have h := hr.invariant OwnersListed (boot_ownersListed c) fun _ _ _ h hg hs => h.step hg hs
  exact fun w hw => h.owned w.tag (List.mem_map_of_mem hw)

/-! ### A child that closes its window before it exits, and one that does not -/

def entry (ev : Lifecycle.Event) : Input := .entry ev noGraphics

/- main forks pid 3 and waits for it; idle runs, then pid 3 creates a window. -/
def childWindow : List Input :=
  [entry (forkAt 0x200000), entry (call 13 3 0)] ++ quantum.map entry ++ [windowCall 18 0]

theorem closed_window_owned : ∃ d,
    Reach systemStep OwnersSpared (bootSystem sampleDesktop) d ∧
    d.sched.procs.map Pcb.pid = [2, 1] ∧ d.windows.windows.map Window.pid = [0] ∧ WindowsOwned d := by
  obtain ⟨d, hr, hp, hw⟩ : ∃ d, Reach systemStep OwnersSpared (bootSystem sampleDesktop) d ∧
      d.sched.procs.map Pcb.pid = [2, 1] ∧ d.windows.windows.map Window.pid = [0] :=
    reach_of_test (childWindow ++ [windowCall 23 2, entry (call 1 0 0)]) (by decide +kernel)
      (by decide +kernel)
  exact ⟨d, hr, hp, hw, windows_owned hr⟩

/-- A process that exits leaves its window behind. -/
theorem exited_owner : ¬ ∀ c d, Reach systemStep anyStep (bootSystem c) d → WindowsOwned d := by
  intro hall
  obtain ⟨d, hr, hlost⟩ : ∃ d, Reach systemStep anyStep (bootSystem sampleDesktop) d ∧
      ∃ w ∈ d.windows.windows, w.pid = 3 ∧ ∀ p ∈ d.sched.procs, p.pid ≠ 3 :=
    reach_of_test (childWindow ++ [entry (call 1 0 0)]) (guarded_anyStep _ _) (by decide +kernel)
  obtain ⟨w, hw, h3, hno⟩ := hlost
  rcases hall sampleDesktop d hr w hw with h0 | ⟨p, hp, hpid⟩
  · rw [h3] at h0
    cases h0
  · exact hno p hp (hpid.trans h3)

end AdamOS.Desktop
