import TaskMgtApp.Auth.TokenIndex
import Mathlib.Data.Set.Card

/-!
# One refresh token, many refreshes

`refresh_access_token` reads the key of its token with one command and deletes
it with another. Rotation is single use as long as no call passes its GET while
another one has passed its own and has not deleted the key yet. Nothing in the
code prevents that, and then both calls return a pair.
-/
namespace TaskMgtApp.Auth

open TaskMgtApp.Common
open TaskMgtApp.Lib.Program TaskMgtApp.Lib.Program.Prog
open TaskMgtApp.Lib.Interleaving
open TaskMgtApp.Lib.ExpiringStore (Store)

/-- The `jti`s of the live refresh tokens of a user. -/
def World.liveTokens (w : World) (u : UUID) : Set String := {j | w.LiveToken u j}

@[simp] theorem mem_liveTokens {w : World} {u : UUID} {j : String} :
    j ∈ w.liveTokens u ↔ w.LiveToken u j := Iff.rfl

/-- A call of `refresh_access_token` for each thread, all with the token `T`. -/
def refreshes {ι : Type} (T : String) (draws : ι → IssueDraws) (i : ι) : Request :=
  .refreshAccessToken T (draws i)

/-- The call has returned a token pair. -/
def ReturnsPair {ι : Type} (c : Threads ι) (i : ι) : Prop :=
  ∃ a R, c.outcome i = some (.ok (.tokenPair a R))

instance {ι : Type} (c : Threads ι) (i : ι) : Decidable (ReturnsPair c i) :=
  match h : c.outcome i with
  | some (.ok (.tokenPair a R)) => .isTrue ⟨a, R, h⟩
  | some (.ok (.registered _ _)) | some (.ok .none) | some (.ok (.resetRequested _))
  | some (.error _) | none => .isFalse (by rintro ⟨a, R, h'⟩; rw [h] at h'; cases h')

/-- A GET that finds the key of the token `p` finds no other call about to delete it. -/
def PassesAlone {ι : Type} (p : Claims) (c : Threads ι) : Act ι Nat → Prop
  | .drift _ => True
  | .step i => c.next i = some (.get (refreshTokenKey p.jti)) →
      c.world.text (refreshTokenKey p.jti) = some p.sub →
      ∀ k, c.next k ≠ some (.delete {refreshTokenKey p.jti})

instance {ι : Type} [Fintype ι] (p : Claims) (c : Threads ι) :
    (a : Act ι Nat) → Decidable (PassesAlone p c a)
  | .drift _ => instDecidableTrue
  | .step i => inferInstanceAs (Decidable (c.next i = some (.get (refreshTokenKey p.jti)) →
      c.world.text (refreshTokenKey p.jti) = some p.sub →
      ∀ k, c.next k ≠ some (.delete {refreshTokenKey p.jti})))

section Race
variable {ι : Type} {env : Env} {w : World} {T : String} {p : Claims} {u : UUID}
  {draws : ι → IssueDraws} {φ : ι → Phase} {c : Threads ι}

/-- Nobody has deleted the key: the calls have not got further than its lookup, one of
them at most past it. -/
structure Unspent (w : World) (p : Claims) (u : UUID) (φ : ι → Phase) (c : Threads ι) : Prop where
  phases : ∀ i, φ i = .idle ∨ φ i = .presenting p ∨ φ i = .holding p
  sole : ∀ i k, φ i = .holding p → φ k = .holding p → i = k
  held : ∀ i, φ i = .holding p → w.LiveToken u p.jti
  live : c.world.liveTokens u ⊆ w.liveTokens u

/-- The call `t` has deleted the key; no other call is past its lookup or will ever be. -/
structure SpentBy (w : World) (p : Claims) (u : UUID) (draws : ι → IssueDraws) (φ : ι → Phase)
    (c : Threads ι) (t : ι) : Prop where
  taker : φ t = .spending p u ∨ φ t = .issuing u ∨ φ t = .recording u ∨ φ t = .issued u
  others : ∀ i, i ≠ t → φ i = .idle ∨ φ i = .presenting p
  gone : ¬ c.world.LiveToken u p.jti
  was : w.LiveToken u p.jti
  live : c.world.liveTokens u ⊆ insert (draws t).refreshJti.str (w.liveTokens u \ {p.jti})

theorem SpentBy.encard_le {t : ι} (h : SpentBy w p u draws φ c t) :
    (c.world.liveTokens u).encard ≤ (w.liveTokens u).encard := by
  have hmem : p.jti ∈ w.liveTokens u := h.was
  calc (c.world.liveTokens u).encard
      ≤ (insert (draws t).refreshJti.str (w.liveTokens u \ {p.jti})).encard :=
        Set.encard_le_encard h.live
    _ ≤ (w.liveTokens u \ {p.jti}).encard + 1 := Set.encard_insert_le ..
    _ = (w.liveTokens u).encard := Set.encard_sdiff_singleton_add_one hmem

/-- A call past its lookup is about to delete the key. -/
theorem next_of_holding {requests : ι → Request}
    (hobey : AllObey (machine env) (fun i => Move env (requests i)) (fun i => Final env (requests i))
      φ c) {i : ι} (hi : φ i = .holding p) : c.next i = some (.delete {refreshTokenKey p.jti}) := by
  have h := hobey i
  rw [hi] at h
  obtain ⟨cmd, φ', hnext, hm⟩ := h.exists_next (fun o ho => nomatch ho) ((c.threads i).locals, c.world)
  rw [Config.next, hnext]
  cases hm <;> rfl

/-- A call that has not got past its lookup either stays there, or is let past it while
the key is there. -/
theorem early_move (hT : env.decode T = some p) {d : IssueDraws} {φ φ' : Phase} {s : State}
    (hφ : φ = .idle ∨ φ = .presenting p)
    (hm : Move env (.refreshAccessToken T d) φ cmd s φ') :
    (φ' = .idle ∨ φ' = .presenting p) ∨
      (φ' = .holding p ∧ cmd = .get (refreshTokenKey p.jti) ∧
        s.2.text (refreshTokenKey p.jti) = some p.sub) := by
  rcases hφ with rfl | rfl
  · cases hm with
    | quiet hc => exact .inl (.inl rfl)
    | present hr hp =>
      obtain ⟨-, hd, -⟩ := issued_of_refreshClaims hp
      obtain ⟨rfl, -⟩ := Request.refreshAccessToken.inj hr
      obtain rfl := Option.some.inj (hT.symm.trans hd)
      exact .inl (.inr rfl)
    | reject hr | checked hr | leave hr | seek hr => cases hr
  · cases hm with
    | pass hp => exact .inr ⟨rfl, rfl, hp⟩
    | fail hp => exact .inl (.inl rfl)

/-- What the taker does next. -/
theorem taker_move {d : IssueDraws} {φ φ' : Phase} {s : State} {cmd : Cmd}
    (hφ : φ = .spending p u ∨ φ = .issuing u ∨ φ = .recording u ∨ φ = .issued u)
    (hm : Move env (.refreshAccessToken T d) φ cmd s φ') :
    φ' = .spending p u ∨ φ' = .issuing u ∨ φ' = .recording u ∨ φ' = .issued u := by
  rcases hφ with rfl | rfl | rfl | rfl
  · cases hm
    exact .inr (.inl rfl)
  · cases hm with
    | cleared | clock => exact .inr (.inl rfl)
    | set hd => exact .inr (.inr (.inl rfl))
  · cases hm
    exact .inr (.inr (.inr rfl))
  · exact .inr (.inr (.inr hm.from_issued))

theorem Unspent.start (w : World) (p : Claims) (u : UUID) :
    Unspent w p u (fun _ => .idle) (beside env w (refreshes T draws)) where
  phases i := .inl rfl
  sole i k hi := by cases hi
  held i hi := by cases hi
  live := Set.Subset.refl _

/-- There is one taker. -/
theorem SpentBy.unique {t t' : ι} (h : SpentBy w p u draws φ c t) (h' : SpentBy w p u draws φ c t') :
    t = t' := by
  by_contra hne
  rcases h'.others t hne with hφ | hφ <;> rcases h.taker with ht | ht | ht | ht <;>
    rw [hφ] at ht <;> cases ht

/-- A call that has ended was refused or is the taker. -/
theorem ended_phase (hJ : Unspent w p u φ c ∨ ∃ t, SpentBy w p u draws φ c t) {i : ι}
    {o : Except Exc Reply} (hfinal : Final env (refreshes T draws i) (φ i) o) :
    φ i = .idle ∨ ∃ t, SpentBy w p u draws φ c t ∧ i = t ∧ φ i = .issued u := by
  rcases hJ with h | ⟨t, h⟩
  · rcases h.phases i with hφ | hφ | hφ
    · exact .inl hφ
    · rw [hφ] at hfinal
      cases hfinal
    · rw [hφ] at hfinal
      cases hfinal
  · by_cases hi : i = t
    · rcases h.taker with hφ | hφ | hφ | hφ
      · rw [hi, hφ] at hfinal
        cases hfinal
      · rw [hi, hφ] at hfinal
        cases hfinal
      · rw [hi, hφ] at hfinal
        cases hfinal
      · exact .inr ⟨t, h, hi, hi ▸ hφ⟩
    · rcases h.others i hi with hφ | hφ
      · exact .inl hφ
      · rw [hφ] at hfinal
        cases hfinal

variable [DecidableEq ι] {i : ι} {cmd : Cmd} {k : Except Exc cmd.Val → AuthM Reply} {φ' : Phase}

theorem Unspent.drift (h : Unspent w p u φ c) (n : Nat) :
    Unspent w p u φ (c.step (machine env) (.drift n)) :=
  ⟨h.phases, h.sole, h.held, fun _ hl => h.live (World.LiveToken.of_later hl)⟩

theorem SpentBy.drift {t : ι} (h : SpentBy w p u draws φ c t) (n : Nat) :
    SpentBy w p u draws φ (c.step (machine env) (.drift n)) t :=
  ⟨h.taker, h.others, fun hl => h.gone (World.LiveToken.of_later hl), h.was,
    fun _ hl => h.live (World.LiveToken.of_later hl)⟩

theorem Unspent.move (hT : env.decode T = some p) (hsub : p.sub = u.str)
    (hobey : AllObey (machine env) (fun i => Move env (refreshes T draws i))
      (fun i => Final env (refreshes T draws i)) φ c)
    (h : Unspent w p u φ c) (hp : (c.threads i).prog = .call cmd k)
    (hm : Move env (refreshes T draws i) (φ i) cmd ((c.threads i).locals, c.world) φ')
    (hmeets : PassesAlone p c (.step i)) :
    Unspent w p u (Function.update φ i φ') (c.issue (machine env) i cmd k) ∨
      ∃ t, SpentBy w p u draws (Function.update φ i φ') (c.issue (machine env) i cmd k) t := by
  by_cases hi : φ i = .holding p
  · -- the sole holder deletes the key
    right
    rw [hi] at hm
    cases hm with
    | take hsub' =>
      obtain rfl := UUID.str_inj.mp (hsub'.symm.trans hsub)
      refine ⟨i, ?_, ?_, ?_, h.held i hi, ?_⟩
      · exact .inl (Function.update_self ..)
      · intro j hj
        rw [Function.update_of_ne hj]
        rcases h.phases j with hφ | hφ | hφ
        · exact .inl hφ
        · exact .inr hφ
        · exact absurd (h.sole j i hφ hi) hj
      · rw [world_issue, liveToken_delete]
        exact fun hl => hl.1 (Finset.mem_singleton_self _)
      · intro j hl
        rw [mem_liveTokens, world_issue, liveToken_delete] at hl
        exact .inr ⟨h.live hl.2, by simpa using hl.1⟩
    | takeMalformed hnone =>
      rw [hsub, UUID.parse_str] at hnone
      cases hnone
  · left
    have hearly : φ i = .idle ∨ φ i = .presenting p := by
      rcases h.phases i with hφ | hφ | hφ
      · exact .inl hφ
      · exact .inr hφ
      · exact absurd hφ hi
    have hlive : (c.issue (machine env) i cmd k).world.liveTokens u ⊆ w.liveTokens u := by
      intro j hl
      rw [mem_liveTokens, world_issue] at hl
      rcases hm.live_before hl with hl | ⟨hissuing, -⟩
      · exact h.live hl
      · rcases hearly with he | he <;> rw [he] at hissuing <;> cases hissuing
    have hphases : ∀ {φ'}, φ' = .idle ∨ φ' = .presenting p ∨ φ' = .holding p → ∀ j,
        Function.update φ i φ' j = .idle ∨ Function.update φ i φ' j = .presenting p ∨
          Function.update φ i φ' j = .holding p := fun hφ' =>
      (Function.forall_update_iff φ fun _ ψ => ψ = .idle ∨ ψ = .presenting p ∨ ψ = .holding p).mpr
        ⟨hφ', fun j _ => h.phases j⟩
    rcases early_move hT hearly hm with hφ' | ⟨rfl, rfl, htext⟩
    · have hne : φ' ≠ .holding p := by rcases hφ' with rfl | rfl <;> simp
      have hbefore : ∀ a, Function.update φ i φ' a = .holding p → φ a = .holding p :=
        before_update (P := fun ψ : Phase => ψ = .holding p) fun hi => absurd hi hne
      refine ⟨?_, ?_, ?_, hlive⟩
      · exact hphases (hφ'.elim .inl fun h => .inr (.inl h))
      · exact fun a b ha hb => h.sole a b (hbefore a ha) (hbefore b hb)
      · exact fun a ha => h.held a (hbefore a ha)
    · -- nobody else is past its lookup when this call gets past its own
      have hnone : ∀ a, φ a ≠ .holding p := fun a ha =>
        hmeets (by simp [Config.next, hp]) htext a (next_of_holding hobey ha)
      have hlook : w.LiveToken u p.jti := h.live (htext.trans (congrArg some hsub))
      refine ⟨?_, ?_, fun _ _ => hlook, hlive⟩
      · exact hphases (.inr (.inr rfl))
      · exact sole_update (P := fun ψ : Phase => ψ = .holding p) h.sole fun _ j _ => hnone j

theorem SpentBy.move (hT : env.decode T = some p) (hsub : p.sub = u.str)
    (hfresh : ∀ i, (draws i).refreshJti.str ≠ p.jti) {t : ι} (h : SpentBy w p u draws φ c t)
    (hm : Move env (refreshes T draws i) (φ i) cmd ((c.threads i).locals, c.world) φ') :
    SpentBy w p u draws (Function.update φ i φ') (c.issue (machine env) i cmd k) t := by
  have hset : φ i = .issuing u → i = t := by
    intro hissuing
    by_contra hi
    rcases h.others i hi with he | he <;> rw [he] at hissuing <;> cases hissuing
  refine ⟨?_, ?_, ?_, h.was, ?_⟩
  · by_cases hi : t = i
    · subst hi
      simpa using taker_move h.taker hm
    · simpa [hi] using h.taker
  · intro j hj
    by_cases hji : j = i
    · subst hji
      rw [Function.update_self]
      rcases early_move hT (h.others j hj) hm with hφ' | ⟨-, -, htext⟩
      · exact hφ'
      · exact absurd (htext.trans (congrArg some hsub)) h.gone
    · simpa [hji] using h.others j hj
  · intro hl
    rw [world_issue] at hl
    rcases hm.live_before hl with hl | ⟨-, -, d, hd, hj⟩
    · exact h.gone hl
    · obtain rfl := Option.some.inj hd
      exact hfresh i hj
  · intro j hl
    rw [mem_liveTokens, world_issue] at hl
    rcases hm.live_before hl with hl | ⟨hissuing, -, d, hd, hj⟩
    · exact h.live hl
    · obtain rfl := hset hissuing
      obtain rfl := Option.some.inj hd
      exact .inl hj.symm

end Race

/-- Any number of refreshes with one token, in every order of their commands: at most
one returns a pair, every other one that ends raises `InvalidTokenError`, and the
user has no more live tokens than before, provided no call passes its lookup
while another one is past its own and has not deleted the key. -/
theorem refresh_single_use {ι : Type} [DecidableEq ι] (env : Env) (w : World) (T : String)
    (p : Claims) (u : UUID) (hT : env.decode T = some p) (hsub : p.sub = u.str)
    (draws : ι → IssueDraws) (hfresh : ∀ i, (draws i).refreshJti.str ≠ p.jti)
    (schedule : List (Act ι Nat))
    (hmeets : (beside env w (refreshes T draws)).Along (machine env) (PassesAlone p) schedule) :
    let c := (beside env w (refreshes T draws)).run (machine env) schedule
    (∀ i k, ReturnsPair c i → ReturnsPair c k → i = k) ∧
    (∀ i o, c.outcome i = some o →
      ReturnsPair c i ∨ o = .error (.invalidTokenError refreshTokenMessage)) ∧
    (c.world.liveTokens u).encard ≤ (w.liveTokens u).encard := by
  intro c
  obtain ⟨φ, hobey, hJ, -⟩ := run_invariant
    (J := fun φ c => Unspent w p u φ c ∨ ∃ t, SpentBy w p u draws φ c t)
    (fun φ c n _ hJ _ => hJ.imp (fun h => h.drift n) (fun ⟨t, h⟩ => ⟨t, h.drift n⟩))
    (fun φ c i cmd k φ' hobey hJ hp hm hmeets => hJ.elim
      (fun h => h.move hT hsub hobey hp hm hmeets)
      (fun ⟨t, h⟩ => .inr ⟨t, h.move hT hsub hfresh hm⟩))
    (beside_obeys env w (refreshes T draws)) (.inl (.start w p u)) hmeets
  have hended : ∀ i o, c.outcome i = some o →
      (o = .error (.invalidTokenError refreshTokenMessage) ∧ φ i = .idle) ∨
      ((∃ a R, o = .ok (.tokenPair a R)) ∧ ∃ t, SpentBy w p u draws φ c t ∧ i = t) := by
    intro i o ho
    have hfinal := hobey.final ho
    rcases ended_phase hJ hfinal with hφ | ⟨t, ht, rfl, hφ⟩
    · rw [hφ] at hfinal
      cases hfinal with
      | refused he => exact .inl ⟨by rw [he T (draws i) rfl], hφ⟩
      | done hreset hrefresh hreply => exact absurd rfl (hrefresh T (draws i))
    · rw [hφ] at hfinal
      cases hfinal with
      | issued hR hminted => exact .inr ⟨⟨_, _, rfl⟩, i, ht, rfl⟩
  refine ⟨?_, ?_, ?_⟩
  · rintro i k ⟨a, R, hi⟩ ⟨a', R', hk⟩
    rcases hended i _ hi with ⟨he, -⟩ | ⟨-, t, ht, rfl⟩
    · cases he
    · rcases hended k _ hk with ⟨he, -⟩ | ⟨-, t', ht', rfl⟩
      · cases he
      · exact ht.unique ht'
  · intro i o ho
    rcases hended i o ho with ⟨he, -⟩ | ⟨⟨a, R, rfl⟩, -⟩
    · exact .inr he
    · exact .inl ⟨a, R, ho⟩
  · rcases hJ with h | ⟨t, h⟩
    · exact Set.encard_le_encard h.live
    · exact h.encard_le

/-! ### Two refreshes -/

def twoDraws : Fin 2 → IssueDraws
  | 0 => plainDraws .two
  | 1 => plainDraws .three

/-- One after the other: they cannot both return a pair. -/
theorem refresh_single_use_serial :
    let c := (beside plainEnv adaLoggedIn (refreshes (plainEnv.encode (adaClaims .one)) twoDraws)).run
      (machine plainEnv) (List.replicate 10 (.step 0) ++ List.replicate 10 (.step 1))
    ¬ (ReturnsPair c 0 ∧ ReturnsPair c 1) := by
  intro c ⟨h0, h1⟩
  have hmeets : (beside plainEnv adaLoggedIn
      (refreshes (plainEnv.encode (adaClaims .one)) twoDraws)).Along (machine plainEnv)
      (PassesAlone (adaClaims .one)) (List.replicate 10 (.step 0) ++ List.replicate 10 (.step 1)) := by
    decide +kernel
  have h := refresh_single_use plainEnv adaLoggedIn (plainEnv.encode (adaClaims .one)) (adaClaims .one)
    ada.id (plainEnv.decode_encode _) rfl twoDraws (by decide) _ hmeets
  exact absurd (h.1 0 1 h0 h1) (by decide)

/-- Both calls look the key up before either deletes it: both return a pair, and Ada
has two live tokens where she had one. -/
theorem refresh_reused :
    let c := (beside plainEnv adaLoggedIn (refreshes (plainEnv.encode (adaClaims .one)) twoDraws)).run
      (machine plainEnv) ([.step 0, .step 0, .step 1, .step 1] ++ List.replicate 8 (.step 0) ++
        List.replicate 8 (.step 1))
    ReturnsPair c 0 ∧ ReturnsPair c 1 ∧
      ¬ (c.world.liveTokens ada.id).encard ≤ (adaLoggedIn.liveTokens ada.id).encard := by
  intro c
  have hrun : ReturnsPair c 0 ∧ ReturnsPair c 1 ∧
      c.world.LiveToken ada.id (plainDraws .two).refreshJti.str ∧
      c.world.LiveToken ada.id (plainDraws .three).refreshJti.str := by decide +kernel
  obtain ⟨h0, h1, h2, h3⟩ := hrun
  refine ⟨h0, h1, fun hle => ?_⟩
  have hbefore : adaLoggedIn.liveTokens ada.id ⊆ {(plainDraws .one).refreshJti.str} := by
    intro j hj
    by_contra hne
    rw [Set.mem_singleton_iff] at hne
    simp [adaLoggedIn, adaAlone, World.recordToken, World.LiveToken, World.text, Store.get,
      hne] at hj
  have hafter : {(plainDraws .two).refreshJti.str, (plainDraws .three).refreshJti.str} ⊆
      c.world.liveTokens ada.id := by
    rintro j (rfl | rfl)
    · exact h2
    · exact h3
  have htwo : ({(plainDraws .two).refreshJti.str, (plainDraws .three).refreshJti.str} : Set String).encard
      = 2 := Set.encard_pair (by decide)
  have hcount : (2 : ℕ∞) ≤ 1 := by
    calc (2 : ℕ∞) = _ := htwo.symm
      _ ≤ (c.world.liveTokens ada.id).encard := Set.encard_le_encard hafter
      _ ≤ (adaLoggedIn.liveTokens ada.id).encard := hle
      _ ≤ ({(plainDraws .one).refreshJti.str} : Set String).encard := Set.encard_le_encard hbefore
      _ = 1 := Set.encard_singleton _
  exact absurd hcount (by decide)

end TaskMgtApp.Auth
