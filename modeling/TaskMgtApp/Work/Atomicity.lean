import TaskMgtApp.Work.Isolation
import TaskMgtApp.Work.Lingering

/-!
# One request at a time is served at once

A user may wait for each answer before the next request, while others send theirs as they
like. To this user every request is then served in one moment, that of its first statement,
on the store that the one before has left: the answers are those of the hard-deleting store
of `Work.HardDelete`, served one call after the other.
-/
namespace TaskMgtApp.Work

open TaskMgtApp.Common
open TaskMgtApp.Lib.Program TaskMgtApp.Lib.Program.Prog
open TaskMgtApp.Lib.Interleaving TaskMgtApp.Lib.Rely

/-! ## What the others do -/

/-- What the clock and the requests of other users make of the tables, beside the request `r`
of `u`. -/
structure Elsewhere (u : UUID) (r : Request) (w w' : World) : Prop extends Meanwhile r w w' where
  view : w'.view u = { w.view u with now := w'.now }

section Others
variable {env : Env} {u : UUID} {r : Request} {φ ψ : OwnPhase} {l : Session} {v w w' w'' : World}

theorem Elsewhere.refl (w : World) : Elsewhere u r w w := ⟨.refl w, rfl⟩

theorem Elsewhere.trans (h : Elsewhere u r w w') (h' : Elsewhere u r w' w'') :
    Elsewhere u r w w'' where
  toMeanwhile := h.toMeanwhile.trans h'.toMeanwhile
  view := by rw [h'.view, h.view]

theorem Elsewhere.entries (h : Elsewhere u r w w') : w'.entries u = w.entries u := by
  rw [← entries_view, h.view]
  exact entries_view

theorem SameView.entries (h : SameView u v w) : v.entries u = w.entries u := by
  rw [← entries_view, h, entries_view]

/-- What a request comes to while time passes, it comes to among the requests of others. -/
theorem ends_elsewhere {α : Type} {F : OwnPhase → Except Exc α → Prop} {Q : Except Exc α → World → Prop}
    (hQ : ∀ o v w, SameView u v w → Q o v → Q o w) {p : WorkM α}
    (hp : Obeys (exec env) (OwnMove u r) F φ p) (hp' : Obeys (exec env) (OwnMove u r) F ψ p)
    (hview : SameView u v w) (hv : v.Valid) (hw : w.Valid) (hsv : OwnSession u r φ l v)
    (hsw : OwnSession u r ψ l w) (h : Ends (exec env) Later (fun o s => Q o s.2) p (l, v)) :
    Ends (exec env) (Elsewhere u r) (fun o s => Q o s.2) p (l, w) := by
  induction p generalizing φ ψ l v w with
  | done o => exact hQ o v w hview h
  | call c k ih =>
    obtain ⟨φ', hm, hk⟩ := hp (l, v)
    obtain ⟨ψ', hm', hk'⟩ := hp' (l, w)
    obtain ⟨hreply, hlocals, hworld⟩ := exec_alike env hview hv hw hsv hsw hm hm'
    have hsv' := hsv.exec env hv hm
    have hsw' := hsw.exec env hw hm'
    have hv' : (exec env c (l, v)).2.2.Valid :=
      hsv.exec_induction env hv hm (fun v x hv _ he _ => he.valid hv) hv
    have hw' : (exec env c (l, w)).2.2.Valid :=
      hsw.exec_induction env hw hm' (fun v x hv _ he _ => he.valid hv) hw
    intro x hx
    have hclock : Meanwhile r (exec env c (l, v)).2.2 { (exec env c (l, v)).2.2 with now := x.now } :=
      .clock _ _
    have hends := h _ ⟨x.now, rfl⟩
    rw [hreply] at hends hk
    rw [hlocals] at hends hsv'
    refine ih _ hk hk' ?_ hv'.at (hx.valid hw') (hsv'.grows hclock.grows hclock.fresh)
      (hsw'.grows hx.grows hx.fresh) hends
    rw [SameView, hx.view, ← hworld]
    rfl

/-- What the request `r` of `u` comes to on the store `entries` at the instant `n`. -/
def ServedAt (env : Env) (n : Nat) (u : UUID) (r : Request) (entries : List HardDelete.Entry)
    (o : Except Exc Reply) (v : World) : Prop :=
  (o, v.entries u) = HardDelete.serve env n u entries r

/-- Whatever others do meanwhile, a request comes to what it would at the instant at which it
begins. -/
theorem served_at_once (hmoves : Obeys (exec env) (OwnMove u r) OwnFinal φ (r.program u)) (hw : w.Valid)
    (hsession : OwnSession u r φ .empty w) (hφ : φ.isOpen) :
    Ends (exec env) (Elsewhere u r) (fun o s => ServedAt env w.now u r (w.entries u) o s.2)
      (r.program u) (.empty, w) := by
  have hfresh := hsession.fresh_of_open hφ
  have hrefines : Refines env w u r := serve_refines env hw r
    (fun id hid p hp heq => hfresh.project p hp (hid.trans (congrArg some heq.symm)))
    (fun id hid t ht heq => hfresh.task t ht (hid.trans (congrArg some heq.symm)))
  have hends := ends_elsewhere (Q := AsServed env w u r)
    (fun o v v' hv h => ⟨h.1, hv.entries.symm.trans h.2⟩) hmoves hmoves rfl hw hw hsession hsession
    (lingering_program env w u r)
  refine hends.mono fun o s hs => ?_
  unfold ServedAt
  rw [hrefines, hs.1, hs.2]

end Others

/-! ## One after the other -/

/-- The requests of `u` that have begun, in the order in which they did, each at the instant of
its first statement; the log has the latest statement first. -/
def begun {ι : Type} [DecidableEq ι] (requests : ι → UUID × Request) (u : UUID) :
    List (Event Cmd.Val Exc World ι) → List (ι × Nat)
  | [] => []
  | e :: log =>
    let earlier := begun requests u log
    if (requests e.thread).1 = u ∧ e.thread ∉ earlier.map Prod.fst then
      earlier ++ [(e.thread, e.before.now)]
    else earlier

/-- The requests as calls, each at its instant. -/
def callsOf {ι : Type} (requests : ι → UUID × Request) (started : List (ι × Nat)) : List Call :=
  started.map fun s => ⟨(requests s.1).1, s.2, (requests s.1).2⟩

/-- The hard-deleting store and its answers, when the requests are served in this order. -/
def servedInTurn {ι : Type} (env : Env) (requests : ι → UUID × Request) (w : World)
    (started : List (ι × Nat)) : List (Except Exc Reply) × (UUID → List HardDelete.Entry) :=
  HardDelete.serveAll env w.entries (callsOf requests started)

/-- A statement of `u` comes when every other request of `u` that has begun has ended. -/
def OneAtATime {ι : Type} (requests : ι → UUID × Request) (u : UUID) (c : Threads ι) :
    Act ι Nat → Prop
  | .step i => (requests i).1 = u →
      ∀ j, j ≠ i → (requests j).1 = u → c.Started j → (c.outcome j).isSome
  | .drift _ => True

section Turns
variable {ι : Type} [DecidableEq ι] {env : Env} {requests : ι → UUID × Request} {u : UUID}
  {w : World} {log : List (Event Cmd.Val Exc World ι)} {started : List (ι × Nat)} {i : ι} {n : Nat}

theorem mem_begun : i ∈ (begun requests u log).map Prod.fst ↔
    (requests i).1 = u ∧ ∃ e ∈ log, e.thread = i := by
  induction log with
  | nil => simp [begun]
  | cons e log ih =>
    rw [begun]
    split
    · rename_i h
      rw [List.map_append, List.mem_append, ih, List.map_singleton, List.mem_singleton]
      constructor
      · rintro (⟨hu, e', he', rfl⟩ | rfl)
        · exact ⟨hu, e', List.mem_cons_of_mem _ he', rfl⟩
        · exact ⟨h.1, e, List.mem_cons_self, rfl⟩
      · rintro ⟨hu, e', he', rfl⟩
        obtain rfl | he' := List.mem_cons.mp he'
        · exact .inr rfl
        · exact .inl ⟨hu, e', he', rfl⟩
    · rename_i h
      rw [ih]
      refine and_congr_right fun hu => ⟨fun ⟨e', he', hi⟩ => ⟨e', List.mem_cons_of_mem _ he', hi⟩, ?_⟩
      rintro ⟨e', he', rfl⟩
      obtain rfl | he' := List.mem_cons.mp he'
      · have hmem := not_not.mp (not_and.mp h hu)
        exact (ih.mp hmem).2
      · exact ⟨e', he', rfl⟩

theorem begun_other {e : Event Cmd.Val Exc World ι} (h : (requests e.thread).1 ≠ u) :
    begun requests u (e :: log) = begun requests u log := by
  rw [begun, if_neg fun h' => h h'.1]

theorem begun_again {e : Event Cmd.Val Exc World ι}
    (h : e.thread ∈ (begun requests u log).map Prod.fst) :
    begun requests u (e :: log) = begun requests u log := by
  rw [begun, if_neg fun h' => h'.2 h]

theorem begun_new {e : Event Cmd.Val Exc World ι} (hu : (requests e.thread).1 = u)
    (h : ¬ ∃ e' ∈ log, e'.thread = e.thread) :
    begun requests u (e :: log) = begun requests u log ++ [(e.thread, e.before.now)] := by
  rw [begun, if_pos ⟨hu, fun hmem => h (mem_begun.mp hmem).2⟩]

theorem serveAll_concat (env : Env) (store : UUID → List HardDelete.Entry) (calls : List Call) (c : Call) :
    HardDelete.serveAll env store (calls ++ [c]) =
      let before := HardDelete.serveAll env store calls
      let last := HardDelete.serve env c.now c.user (before.2 c.user) c.request
      (before.1 ++ [last.1], Function.update before.2 c.user last.2) := by
  induction calls generalizing store with
  | nil => rfl
  | cons d calls ih =>
    simp only [List.cons_append, HardDelete.serveAll, ih]

omit [DecidableEq ι] in
theorem servedInTurn_concat (hi : (requests i).1 = u) :
    servedInTurn env requests w (started ++ [(i, n)]) =
      let before := servedInTurn env requests w started
      let last := HardDelete.serve env n u (before.2 u) (requests i).2
      (before.1 ++ [last.1], Function.update before.2 u last.2) := by
  subst hi
  simp only [servedInTurn, callsOf, List.map_append, List.map_singleton, serveAll_concat]

end Turns

/-! ## Where the requests of a user stand -/

/-- The requests that have begun, `started`, have all ended, as if they had been served in turn. -/
structure Resting {ι : Type} [DecidableEq ι] (env : Env) (requests : ι → UUID × Request) (u : UUID)
    (w : World) (started : List (ι × Nat)) (c : Threads ι) : Prop where
  answered : List.Forall₂ (fun s o => c.outcome s.1 = some o) started
    (servedInTurn env requests w started).1
  entries : c.world.entries u = (servedInTurn env requests w started).2 u

/-- The requests `started` have ended, and `i`, which began after them at the instant `n`, will
come to what it comes to there and then. -/
structure Running {ι : Type} [DecidableEq ι] (env : Env) (requests : ι → UUID × Request) (u : UUID)
    (w : World) (started : List (ι × Nat)) (i : ι) (n : Nat) (c : Threads ι) : Prop where
  answered : List.Forall₂ (fun s o => c.outcome s.1 = some o) started
    (servedInTurn env requests w started).1
  own : (requests i).1 = u
  assured : Assured (machine env) (Elsewhere u (requests i).2) (fun o s => ServedAt env n u (requests i).2
    ((servedInTurn env requests w started).2 u) o s.2) c i
  pending : c.outcome i = none → c.world.entries u = (servedInTurn env requests w started).2 u

section Standing
variable {ι : Type} [DecidableEq ι] {env : Env} {requests : ι → UUID × Request} {u : UUID}
  {w : World} {c d : Threads ι} {started : List (ι × Nat)} {i j : ι} {n : Nat} {cmd : Cmd}
  {k : Except Exc cmd.Val → WorkM Reply}

theorem Resting.step (h : Resting env requests u w started c) (a : Act ι Nat)
    (hentries : (c.step (machine env) a).world.entries u = c.world.entries u) :
    Resting env requests u w started (c.step (machine env) a) where
  answered := h.answered.imp fun _ _ ho => Config.outcome_step ho a
  entries := hentries.trans h.entries

/-- A request that has ended is one of those that have been served. -/
theorem Running.settle (h : Running env requests u w started i n c) (hdone : (c.outcome i).isSome) :
    Resting env requests u w (started ++ [(i, n)]) c := by
  obtain ⟨o, ho⟩ := Option.isSome_iff_exists.mp hdone
  have hserved := h.assured.outcome Elsewhere.refl ho
  unfold ServedAt at hserved
  constructor
  · rw [servedInTurn_concat h.own]
    dsimp only
    rw [← hserved]
    exact List.rel_append h.answered (.cons ho .nil)
  · rw [servedInTurn_concat h.own]
    dsimp only
    rw [← hserved, Function.update_self]

/-- Somebody else, or the clock. -/
theorem Running.others (h : Running env requests u w started i n c) (a : Act ι Nat)
    (hthread : (c.step (machine env) a).threads i = c.threads i)
    (hworld : Elsewhere u (requests i).2 c.world (c.step (machine env) a).world) :
    Running env requests u w started i n (c.step (machine env) a) where
  answered := h.answered.imp fun _ _ ho => Config.outcome_step ho a
  own := h.own
  assured := h.assured.others (fun _ _ _ => Elsewhere.trans) hthread hworld
  pending hnone := by
    rw [Config.outcome, hthread] at hnone
    exact hworld.entries.trans (h.pending hnone)

/-- The running request goes on. -/
theorem Running.own_turn (hinv : OwnInv env requests c) (h : Running env requests u w started i n c)
    (hp : (c.threads i).prog = .call cmd k) :
    Running env requests u w started i n (c.issue (machine env) i cmd k) where
  answered := by
    rw [← Config.step_of_call hp]
    exact h.answered.imp fun _ _ ho => Config.outcome_step ho (.step i)
  own := h.own
  assured := h.assured.issue Elsewhere.refl hp
  pending hnone := by
    obtain ⟨φ, hobey, -⟩ := hinv
    have hworld := world_of_unsuccessful hobey hp fun reply hreply => by
      rw [hnone] at hreply
      cases hreply
    rw [hworld]
    refine h.pending ?_
    rw [Config.outcome, hp]
    rfl

/-- A request begins. -/
theorem Resting.begin (hinv : OwnInv env requests c) (h : Resting env requests u w started c)
    (hi : (requests i).1 = u) (hnew : c.threads i = ⟨.empty, (requests i).2.program u⟩)
    (hp : (c.threads i).prog = .call cmd k) :
    Running env requests u w started i c.world.now (c.issue (machine env) i cmd k) where
  answered := by
    rw [← Config.step_of_call hp]
    exact h.answered.imp fun _ _ ho => Config.outcome_step ho (.step i)
  own := hi
  assured := by
    obtain ⟨φ, hobey, hsound⟩ := hinv
    obtain ⟨φ', hm, -⟩ := hobey.issue hp
    have hsession := hsound.sessions i
    have hmoves : Obeys _ (OwnMove (requests i).1 (requests i).2) _ _ _ := hobey i
    rw [hi, hnew] at hsession hmoves
    have hserved := served_at_once hmoves hsound.valid hsession hm.isOpen
    rw [hnew] at hp
    change (requests i).2.program u = _ at hp
    rw [hp, h.entries] at hserved
    intro v hv
    rw [Config.threads_issue_self, hnew]
    rw [Config.world_issue, hnew] at hv
    exact hserved v hv
  pending hnone := by
    obtain ⟨φ, hobey, -⟩ := hinv
    have hworld := world_of_unsuccessful hobey hp fun reply hreply => by
      rw [hnone] at hreply
      cases hreply
    rw [hworld]
    exact h.entries

omit [DecidableEq ι] in
theorem ended_of_answered {os : List (Except Exc Reply)}
    (h : List.Forall₂ (fun (s : ι × Nat) o => c.outcome s.1 = some o) started os)
    (hmem : i ∈ started.map Prod.fst) : (c.outcome i).isSome := by
  induction h with
  | nil => cases hmem
  | cons ho _ ih =>
    obtain rfl | hmem := List.mem_cons.mp hmem
    · rw [ho]
      rfl
    · exact ih hmem

/-- A statement of another user is elsewhere to each request of `u`. -/
theorem OwnInv.elsewhere (hapart : ∀ i k, i ≠ k → (requests i).2.Apart (requests k).2)
    (h : OwnInv env requests c) (hp : (c.threads j).prog = .call cmd k) (hne : (requests j).1 ≠ u)
    (hij : j ≠ i) : Elsewhere u (requests i).2 c.world (c.issue (machine env) j cmd k).world where
  toMeanwhile := h.meanwhile hapart hp hij
  view := by
    have hview : (c.issue (machine env) j cmd k).world.view u = c.world.view u := h.respect hp hne
    have hnow : c.world.now = (c.issue (machine env) j cmd k).world.now :=
      SameView.now (u := u) hview.symm
    rw [hview, ← hnow]
    rfl

/-- Every request of `u` that has begun has been served in turn, but for the last. -/
structure InTurn (env : Env) (requests : ι → UUID × Request) (u : UUID) (w : World)
    (c : Threads ι) : Prop where
  inv : OwnInv env requests c
  initial : ∀ i, ¬ c.Started i → c.threads i = ⟨.empty, (requests i).2.program (requests i).1⟩
  stands : Resting env requests u w (begun requests u c.log) c ∨
    ∃ before i n, begun requests u c.log = before ++ [(i, n)] ∧
      Running env requests u w before i n c

/-- While no other request of `u` runs, all that have begun have been served. -/
theorem InTurn.resting (h : InTurn env requests u w c)
    (hended : ∀ i, (requests i).1 = u → c.Started i → (c.outcome i).isSome) :
    Resting env requests u w (begun requests u c.log) c := by
  obtain hrest | ⟨before, i, n, hbegun, hrun⟩ := h.stands
  · exact hrest
  · have hmem : i ∈ (begun requests u c.log).map Prod.fst := by simp [hbegun]
    rw [hbegun]
    exact hrun.settle (hended i hrun.own (mem_begun.mp hmem).2)

theorem InTurn.own_turn (h : InTurn env requests u w c) (hp : (c.threads j).prog = .call cmd k)
    (hu : (requests j).1 = u)
    (halone : ∀ i, i ≠ j → (requests i).1 = u → c.Started i → (c.outcome i).isSome) :
    ∃ before i n, begun requests u (c.issue (machine env) j cmd k).log = before ++ [(i, n)] ∧
      Running env requests u w before i n (c.issue (machine env) j cmd k) := by
  have hgoing : ¬ (c.outcome j).isSome := by
    rw [Config.outcome, hp]
    exact Bool.false_ne_true
  rw [Config.log_issue]
  by_cases hstarted : c.Started j
  · have hmem : j ∈ (begun requests u c.log).map Prod.fst := mem_begun.mpr ⟨hu, hstarted⟩
    obtain hrest | ⟨before, i, n, hbegun, hrun⟩ := h.stands
    · exact absurd (ended_of_answered hrest.answered hmem) hgoing
    · obtain rfl : j = i := by
        rw [hbegun, List.map_append, List.mem_append] at hmem
        obtain hmem | hmem := hmem
        · exact absurd (ended_of_answered hrun.answered hmem) hgoing
        · exact List.mem_singleton.mp hmem
      refine ⟨before, j, n, ?_, hrun.own_turn h.inv hp⟩
      rw [begun_again hmem, hbegun]
  · have hrest := h.resting fun i hi hs => halone i (fun hij => hstarted (hij ▸ hs)) hi hs
    refine ⟨_, j, c.world.now, begun_new hu hstarted, hrest.begin h.inv hu ?_ hp⟩
    rw [h.initial j hstarted, hu]

theorem InTurn.step (hapart : ∀ i k, i ≠ k → (requests i).2.Apart (requests k).2)
    (h : InTurn env requests u w c) (a : Act ι Nat) (ha : OneAtATime requests u c a) :
    InTurn env requests u w (c.step (machine env) a) where
  inv := h.inv.run hapart [a]
  initial i hi := by
    rw [Config.threads_of_not_started hi]
    exact h.initial i fun hs => hi (hs.step a)
  stands := by
    cases a with
    | drift n =>
      refine h.stands.imp (fun hrest => hrest.step _ rfl) fun ⟨before, i, m, hbegun, hrun⟩ => ?_
      exact ⟨before, i, m, hbegun, hrun.others _ rfl ⟨.clock _ _, rfl⟩⟩
    | step j =>
      cases hp : (c.threads j).prog with
      | done o =>
        rw [Config.step_of_done hp]
        exact h.stands
      | call cmd k =>
        have hstep := Config.step_of_call (m := machine env) hp
        by_cases hu : (requests j).1 = u
        · rw [hstep]
          exact .inr (h.own_turn hp hu (ha hu))
        · have hlog : begun requests u (c.step (machine env) (.step j)).log = begun requests u c.log := by
            rw [hstep]
            exact begun_other hu
          rw [hlog]
          refine h.stands.imp (fun hrest => hrest.step _ ?_) fun ⟨before, i, m, hbegun, hrun⟩ => ?_
          · rw [hstep]
            exact (h.inv.respect hp hu).entries
          · have hij : j ≠ i := by
              rintro rfl
              exact hu hrun.own
            refine ⟨before, i, m, hbegun, hrun.others _ ?_ ?_⟩
            · rw [hstep]
              exact Config.threads_issue_of_ne hij.symm
            · rw [hstep]
              exact h.inv.elsewhere hapart hp hu hij

theorem InTurn.run (hapart : ∀ i k, i ≠ k → (requests i).2.Apart (requests k).2)
    (h : InTurn env requests u w c) {schedule : List (Act ι Nat)}
    (halone : c.Along (machine env) (OneAtATime requests u) schedule) :
    InTurn env requests u w (c.run (machine env) schedule) := by
  induction schedule generalizing c with
  | nil => exact h
  | cons a as ih => exact ih (h.step hapart a halone.1) halone.2

end Standing

/-- A user who makes one request at a time, whatever others do meanwhile, is answered as by the
hard-deleting store that serves the requests in one moment each, in the order and at the
instants at which they begin; and what the tables hold for this user is that store, before or
after the request that is still running. -/
theorem one_at_a_time_is_atomic {ι : Type} [DecidableEq ι] (env : Env) (w : World) (hvalid : w.Valid)
    (requests : ι → UUID × Request) (hfresh : FreshRequests w requests) (u : UUID)
    (schedule : List (Act ι Nat))
    (halone : (beside w requests).Along (machine env) (OneAtATime requests u) schedule) :
    let full := (beside w requests).run (machine env) schedule
    let started := begun requests u full.log
    List.Forall₂ (fun s o => ∀ o', full.outcome s.1 = some o' → o' = o) started
        (servedInTurn env requests w started).1 ∧
      (full.world.entries u = (servedInTurn env requests w started).2 u ∨
        ∃ before i n, started = before ++ [(i, n)] ∧ full.outcome i = none ∧
          full.world.entries u = (servedInTurn env requests w before).2 u) := by
  intro full started
  have hstart : InTurn env requests u w (beside w requests) :=
    ⟨.start env hvalid hfresh, fun i _ => rfl, .inl ⟨.nil, rfl⟩⟩
  have hend : InTurn env requests u w full := hstart.run hfresh.apart halone
  have hagree : ∀ {before os}, List.Forall₂ (fun (s : ι × Nat) o => full.outcome s.1 = some o) before os →
      List.Forall₂ (fun s o => ∀ o', full.outcome s.1 = some o' → o' = o) before os :=
    fun h => h.imp fun s o ho o' ho' => Option.some.inj (ho'.symm.trans ho)
  obtain hrest | ⟨before, i, n, hbegun, hrun⟩ := hend.stands
  · exact ⟨hagree hrest.answered, .inl hrest.entries⟩
  · change started = _ at hbegun
    cases hi : full.outcome i with
    | some o =>
      have hrest := hrun.settle (by rw [hi]; rfl)
      rw [← hbegun] at hrest
      exact ⟨hagree hrest.answered, .inl hrest.entries⟩
    | none =>
      refine ⟨?_, .inr ⟨before, i, n, hbegun, hi, hrun.pending hi⟩⟩
      rw [hbegun, servedInTurn_concat hrun.own]
      refine List.rel_append (hagree hrun.answered) (.cons (fun o' ho' => ?_) .nil)
      rw [hi] at ho'
      cases ho'

instance {ι : Type} [Fintype ι] [DecidableEq ι] (requests : ι → UUID × Request) (u : UUID)
    (c : Threads ι) : (a : Act ι Nat) → Decidable (OneAtATime requests u c a)
  | .step i => inferInstanceAs (Decidable ((requests i).1 = u → _))
  | .drift _ => .isTrue trivial

/-- Ada adds a task to her project, and then deletes the project, which Bob tries as well. -/
def adaInTurn : Fin 3 → UUID × Request
  | 0 => (plainUuid .zero .zero, .createTask chapterTwo (plainUuid .two .one))
  | 1 => (plainUuid .zero .zero, .deleteProject (plainUuid .one .zero))
  | 2 => (plainUuid .zero .one, .deleteProject (plainUuid .one .zero))

theorem one_at_a_time_is_atomic_adaInTurn :
    let full := (beside oneProject adaInTurn).run (machine plainEnv)
      ([.step 0, .step 2, .drift 5, .step 0, .step 0, .step 2, .step 0] ++
        [.step 1, .step 1, .drift 7] ++ List.replicate 4 (.step 1))
    let started : List (Fin 3 × Nat) := [(0, 100), (1, 105)]
    List.Forall₂ (fun s o => ∀ o', full.outcome s.1 = some o' → o' = o) started
      (servedInTurn plainEnv adaInTurn oneProject started).1 := by
  have hatomic := one_at_a_time_is_atomic plainEnv oneProject oneProject_valid adaInTurn
    (by decide +kernel) (plainUuid .zero .zero)
    ([.step 0, .step 2, .drift 5, .step 0, .step 0, .step 2, .step 0] ++
      [.step 1, .step 1, .drift 7] ++ List.replicate 4 (.step 1)) (by decide +kernel)
  have hstarted : begun adaInTurn (plainUuid .zero .zero)
      ((beside oneProject adaInTurn).run (machine plainEnv)
        ([.step 0, .step 2, .drift 5, .step 0, .step 0, .step 2, .step 0] ++
          [.step 1, .step 1, .drift 7] ++ List.replicate 4 (.step 1))).log = [(0, 100), (1, 105)] := by
    decide +kernel
  have hanswered := hatomic.1
  rwa [hstarted] at hanswered

end TaskMgtApp.Work
