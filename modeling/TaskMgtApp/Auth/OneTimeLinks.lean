import TaskMgtApp.Auth.Credentials
import TaskMgtApp.Auth.Footprints

/-!
# The life of a one-time link

A verification or reset link works from the request that sends it until it is used,
and no longer than its lifetime. Nothing else ends it: `request_password_reset` keeps no
index of the links of an account, so a reset uses up its own link and no other.
-/
namespace TaskMgtApp.Auth

open TaskMgtApp.Common
open TaskMgtApp.Lib.ExpiringStore

/-! ## Links of both kinds -/

/-- The key of a verification link or of a reset link. -/
def linkKey (verification : Bool) (x : String) : String :=
  if verification then emailVerifyKey x else pwdResetKey x

/-- The lifetime of a link. -/
def linkSeconds (env : Env) (verification : Bool) : Nat :=
  if verification then env.settings.emailVerificationTtlHours * 3600
  else env.settings.passwordResetTtlMinutes * 60

/-- The request used the link `x`. -/
def Entry.uses (e : Entry) (verification : Bool) (x : String) : Prop :=
  e.outcome = .ok .none ∧
    if verification then e.request = .verifyEmail x
    else ∃ newPassword salt, e.request = .resetPassword x newPassword salt

/-- The link `x` was sent for the account `u` at second `s`. -/
def LinkSent (log : List Entry) (verification : Bool) (x : String) (u : UUID) (s : Nat) : Prop :=
  ∃ e ∈ log, e.gives verification x u ∧ e.before.now = s

def LinkUsed (log : List Entry) (verification : Bool) (x : String) : Prop :=
  ∃ e ∈ log, e.uses verification x

/-- What a request does to a link: it uses it, sends it, or leaves it alone. -/
inductive LinkMove (env : Env) (e : Entry) (w' : World) (b : Bool) (x : String) : Prop
  | used (huses : e.uses b x) (hlook : w'.redis.look e.before.now (linkKey b x) = none)
  | sent (u : UUID) (hgives : e.gives b x u)
      (hlook : w'.redis.look e.before.now (linkKey b x) =
        some ⟨.text u.str, some (e.before.now + linkSeconds env b)⟩)
  | kept (huses : ¬ e.uses b x) (hgives : ∀ u, ¬ e.gives b x u)
      (hlook : w'.redis.look e.before.now (linkKey b x) =
        e.before.redis.look e.before.now (linkKey b x))

theorem linkSeconds_pos (env : Env) (b : Bool) : 0 < linkSeconds env b := by
  cases b
  · exact Nat.mul_pos env.settings.reset_pos (by decide)
  · exact Nat.mul_pos env.settings.verification_pos (by decide)

section Moves
variable {env : Env} {w w' : World} {r : Request} {o : Except Exc Reply} {b : Bool} {x : String}

/-- A refused request leaves every link alone. -/
theorem linkMove_refused {e : Exc} : LinkMove env ⟨w, r, .error e⟩ w b x := by
  refine .kept ?_ ?_ rfl
  · intro h
    cases h.1
  · intro u h
    obtain ⟨user, -, ho⟩ := h
    cases b <;> cases ho

/-- The key of a link is touched only by a request that presents or draws it. -/
theorem touches_linkKey (h : r.Touches env w (linkKey b x)) :
    (b = true ∧ ((∃ email password fullName d, r = .register email password fullName d ∧ d.token = x) ∨
      r = .verifyEmail x)) ∨
    (b = false ∧ ((∃ email, r = .requestPasswordReset email x) ∨
      ∃ newPassword salt, r = .resetPassword x newPassword salt)) := by
  generalize hkey : linkKey b x = k at h
  cases b with
  | true =>
    left
    refine ⟨rfl, ?_⟩
    change emailVerifyKey x = k at hkey
    cases h with
    | @register email password fullName d =>
      exact .inl ⟨email, password, fullName, d, rfl, ((emailVerifyKey_inj _ _).mp hkey).symm⟩
    | verifyEmail =>
      obtain rfl := (emailVerifyKey_inj _ _).mp hkey
      exact .inr rfl
    | _ => simp at hkey
  | false =>
    right
    refine ⟨rfl, ?_⟩
    change pwdResetKey x = k at hkey
    cases h with
    | @requestReset email y =>
      obtain rfl := (pwdResetKey_inj _ _).mp hkey
      exact .inl ⟨email, rfl⟩
    | @reset y newPassword salt =>
      obtain rfl := (pwdResetKey_inj _ _).mp hkey
      exact .inr ⟨newPassword, salt, rfl⟩
    | _ => simp at hkey

/-- A request that uses or sends a link touches its key. -/
theorem Effect.touches_of_uses (h : (⟨w, r, o⟩ : Entry).uses b x) : r.Touches env w (linkKey b x) := by
  obtain ⟨-, hr⟩ := h
  cases b with
  | true =>
    obtain rfl : r = _ := hr
    exact .verifyEmail
  | false =>
    obtain ⟨newPassword, salt, hr⟩ := hr
    obtain rfl : r = _ := hr
    exact .reset

theorem Effect.touches_of_gives (he : Effect env w r o w') {u : UUID}
    (h : (⟨w, r, o⟩ : Entry).gives b x u) : r.Touches env w (linkKey b x) := by
  obtain ⟨user, -, ho⟩ := h
  dsimp only at ho
  cases b with
  | true =>
    cases he <;> cases ho
    exact .register
  | false =>
    cases he <;> cases ho
    exact .requestReset

theorem Effect.linkMove (he : Effect env w r o w') (hformed : WellFormed env w) (b : Bool)
    (x : String) : LinkMove env ⟨w, r, o⟩ w' b x := by
  by_cases hk : r.Touches env w (linkKey b x)
  · rcases touches_linkKey hk with ⟨rfl, ⟨_, _, _, d, rfl, rfl⟩ | rfl⟩ |
      ⟨rfl, ⟨_, rfl⟩ | ⟨_, _, rfl⟩⟩
    · cases he with
      | refused => exact linkMove_refused
      | registered =>
        refine .sent d.userId ⟨_, rfl, rfl⟩ ?_
        have hpos := linkSeconds_pos env true
        change 0 < env.settings.emailVerificationTtlHours * 3600 at hpos
        simp [linkKey, linkSeconds]
        omega
      | malformedSubject _ T p hclaims hsub => exact absurd hsub (hformed T p hclaims)
    · cases he with
      | refused => exact linkMove_refused
      | verified => exact .used ⟨rfl, rfl⟩ (by simp [linkKey])
      | malformedSubject _ T p hclaims hsub => exact absurd hsub (hformed T p hclaims)
    · cases he with
      | refused => exact linkMove_refused
      | unknownEmail =>
        refine .kept ?_ ?_ rfl
        · intro h
          cases h.1
        · intro u h
          obtain ⟨user, -, ho⟩ := h
          cases ho
      | resetRequested _ _ user =>
        refine .sent user.id ⟨user, rfl, rfl⟩ ?_
        have hpos := linkSeconds_pos env false
        change 0 < env.settings.passwordResetTtlMinutes * 60 at hpos
        simp [linkKey, linkSeconds]
        omega
      | malformedSubject _ T p hclaims hsub => exact absurd hsub (hformed T p hclaims)
    · cases he with
      | refused => exact linkMove_refused
      | reset _ _ _ userId user =>
        refine .used ⟨rfl, _, _, rfl⟩ ?_
        have hgone : (w.redis.delete w.now {pwdResetKey x}).2.look w.now (pwdResetKey x) = none := by simp
        have hkept := (sameAt_revokeAll (w := w) (s := (w.redis.delete w.now {pwdResetKey x}).2)
          (k := pwdResetKey x) (u := user.id) (fun j _ => by simp) (by simp)).look w.now
        exact hkept.trans hgone
      | malformedSubject _ T p hclaims hsub => exact absurd hsub (hformed T p hclaims)
  · exact .kept (fun h => hk (touches_of_uses h)) (fun u h => hk (he.touches_of_gives h))
      ((he.frame hformed hk).look w.now)

end Moves

/-! ## A link over a whole run -/

/-- What the store holds of the links that were sent. -/
structure Links (env : Env) (t : Trace) : Prop where
  live : ∀ b x u s, LinkSent t.log b x u s → ¬ LinkUsed t.log b x →
    t.world.now < s + linkSeconds env b →
    t.world.redis.look t.world.now (linkKey b x) = some ⟨.text u.str, some (s + linkSeconds env b)⟩
  expired : ∀ b x u s, LinkSent t.log b x u s → s + linkSeconds env b ≤ t.world.now →
    t.world.redis.look t.world.now (linkKey b x) = none
  used : ∀ b x, LinkUsed t.log b x → t.world.redis.look t.world.now (linkKey b x) = none
  past : ∀ b x u s, LinkSent t.log b x u s → s ≤ t.world.now
  issued : ∀ b x, LinkUsed t.log b x → ∃ u, OneTime t.log b x u

section Steps
variable {env : Env} {t : Trace} {b : Bool} {x : String} {u : UUID} {s : Nat} {e : Entry}
  {log : List Entry}

theorem gives_not_uses (hg : e.gives b x u) : ¬ e.uses b x := by
  intro hu
  obtain ⟨user, -, ho⟩ := hg
  rw [hu.1] at ho
  cases b <;> cases ho

/-- Only a link that was sent is used. -/
theorem Ledger.oneTime_of_uses (h : Ledger env t) {r : Request} {o : Except Exc Reply} {w' : World}
    (he : Effect env t.world r o w') (hu : (⟨t.world, r, o⟩ : Entry).uses b x) :
    ∃ u, OneTime t.log b x u := by
  obtain ⟨ho, hr⟩ := hu
  obtain rfl : o = _ := ho
  cases b with
  | true =>
    obtain rfl : r = _ := hr
    cases he with
    | verified _ userId user htext =>
      obtain ⟨c, hc, hv, hreg⟩ := h.verifyCell htext
      exact ⟨userId, hreg⟩
  | false =>
    obtain ⟨newPassword, salt, hr⟩ := hr
    obtain rfl : r = _ := hr
    cases he with
    | reset _ _ _ userId user htext =>
      obtain ⟨c, hc, hv, hissued⟩ := h.resetCell htext
      exact ⟨userId, hissued⟩

theorem LinkSent.oneTime (h : LinkSent log b x u s) : OneTime log b x u := by
  obtain ⟨e, he, ⟨user, hid, ho⟩, -⟩ := h
  cases b
  · exact ⟨e, he, user, ho, hid⟩
  · exact ⟨e, he, user, ho, hid⟩

theorem linkSent_cons :
    LinkSent (e :: log) b x u s ↔ (e.gives b x u ∧ e.before.now = s) ∨ LinkSent log b x u s := by
  simp [LinkSent]

theorem linkUsed_cons : LinkUsed (e :: log) b x ↔ e.uses b x ∨ LinkUsed log b x := by
  simp [LinkUsed]

theorem Links.start (env : Env) (now : Nat) (users : List User) : Links env (Trace.start now users) where
  live b x u s h := by
    obtain ⟨e, he, -⟩ := h
    cases he
  expired b x u s h := by
    obtain ⟨e, he, -⟩ := h
    cases he
  used b x h := by
    obtain ⟨e, he, -⟩ := h
    cases he
  past b x u s h := by
    obtain ⟨e, he, -⟩ := h
    cases he
  issued b x h := by
    obtain ⟨e, he, -⟩ := h
    cases he

theorem Links.wait (h : Links env t) (n : Nat) : Links env (t.step env (.wait n)) where
  live b x u s hs hu hlt := by
    have hnow : t.world.now < s + linkSeconds env b := Nat.lt_of_le_of_lt (Nat.le_add_right _ n) hlt
    exact (Store.look_later_iff (h.live b x u s hs hu hnow)).mpr hlt
  expired b x u s hs hle := by
    change s + linkSeconds env b ≤ t.world.now + n at hle
    cases hlook : t.world.redis.look (t.world.now + n) (linkKey b x) with
    | none => exact hlook
    | some c =>
      exfalso
      have hc := Store.look_of_later (Nat.le_add_right _ n) hlook
      by_cases hu : LinkUsed t.log b x
      · rw [h.used b x hu] at hc
        cases hc
      · by_cases hlt : t.world.now < s + linkSeconds env b
        · have hlive := h.live b x u s hs hu hlt
          obtain rfl := Option.some.inj (hc.symm.trans hlive)
          have hahead := (Store.look_later_iff hlive).mp hlook
          omega
        · rw [h.expired b x u s hs (by omega)] at hc
          cases hc
  used b x hu := Store.look_none_later (Nat.le_add_right _ n) (h.used b x hu)
  past b x u s hs := Nat.le_trans (h.past b x u s hs) (Nat.le_add_right _ n)
  issued := h.issued

/-- The store does not depend on the table of users. -/
theorem Links.users (h : Links env t) (users : List User) :
    Links env { t with world := { t.world with users := users } } :=
  ⟨h.live, h.expired, h.used, h.past, h.issued⟩

theorem Links.request {r : Request} (h : Links env t) (hledger : Ledger env t)
    (honce : OneTimeTokens t.log) (hfresh : Fresh (t.requests ++ [r])) :
    Links env (t.step env (.request r)) := by
  have he := serve_effect env t.world r
  have hnow : (serve env t.world r).2.now = t.world.now := he.now
  have hmove := he.linkMove fun T p hp => hledger.not_malformed hp
  -- A link that is sent now was neither sent nor used before.
  have hnew : ∀ {b b' x u v}, (⟨t.world, r, (serve env t.world r).1⟩ : Entry).gives b x u →
      ¬ OneTime t.log b' x v := by
    intro b b' x u v hg hold
    obtain ⟨e, hmem, hdrawn⟩ := honce.drawn b' x v hold
    exact hfresh.oneTimeToken_new hmem hdrawn (he.drawn hg) rfl
  constructor
  · intro b x u s hs hu hlt
    simp only [Trace.step, hnow, linkSent_cons, linkUsed_cons, not_or] at hs hu hlt ⊢
    cases hmove b x with
    | used huses hlook => exact absurd huses hu.1
    | sent v hgives hlook =>
      rcases hs with ⟨hg, rfl⟩ | hs
      · rw [(gives_unique hg hgives).2]
        exact hlook
      · exact absurd hs.oneTime (hnew hgives)
    | kept huses hgives hlook =>
      rcases hs with ⟨hg, -⟩ | hs
      · exact absurd hg (hgives u)
      · exact hlook.trans (h.live b x u s hs hu.2 hlt)
  · intro b x u s hs hle
    simp only [Trace.step, hnow, linkSent_cons] at hs hle ⊢
    rcases hs with ⟨hg, rfl⟩ | hs
    · have hpos := linkSeconds_pos env b
      omega
    · cases hmove b x with
      | used huses hlook => exact hlook
      | sent v hgives hlook => exact absurd hs.oneTime (hnew hgives)
      | kept huses hgives hlook => exact hlook.trans (h.expired b x u s hs hle)
  · intro b x hu
    simp only [Trace.step, hnow, linkUsed_cons] at hu ⊢
    cases hmove b x with
    | used huses hlook => exact hlook
    | sent v hgives hlook =>
      exfalso
      rcases hu with hu | hu
      · exact gives_not_uses hgives hu
      · obtain ⟨v', hv'⟩ := h.issued b x hu
        exact hnew hgives hv'
    | kept huses hgives hlook => exact hlook.trans (h.used b x (hu.resolve_left huses))
  · intro b x u s hs
    simp only [Trace.step, hnow, linkSent_cons] at hs ⊢
    rcases hs with ⟨-, rfl⟩ | hs
    · exact Nat.le_refl _
    · exact h.past b x u s hs
  · intro b x hu
    rcases linkUsed_cons.mp hu with hu | hu
    · obtain ⟨v, hv⟩ := hledger.oneTime_of_uses he hu
      exact ⟨v, oneTime_cons.mpr (.inr hv)⟩
    · obtain ⟨v, hv⟩ := h.issued b x hu
      exact ⟨v, oneTime_cons.mpr (.inr hv)⟩

end Steps

theorem links_after (env : Env) (now : Nat) {users : List User} (husers : TableOk users)
    (actions : List Action) (hfresh : Fresh (actions.flatMap Action.requests)) :
    Links env ((Trace.start now users).after env actions) := by
  refine ledger_induction husers hfresh (.start env now users) ?_
  intro t a hledger honce h hf
  cases a with
  | wait n => exact h.wait n
  | request r => exact h.request hledger honce hf
  | setActive id isActive => exact h.users _
  | softDelete id => exact h.users _

/-! ## What ends a reset link -/

theorem text_of_look {w : World} {k v : String} {d : Option Nat}
    (h : w.redis.look w.now k = some ⟨.text v, d⟩) : w.text k = some v := by
  simp [World.text, Store.get, h]

theorem text_of_look_none {w : World} {k : String} (h : w.redis.look w.now k = none) :
    w.text k = none := by
  simp [World.text, Store.get, h]

theorem World.userById_mem {w : World} {id : UUID} {user : User} (h : w.userById id = some user) :
    user ∈ w.users := List.mem_of_find?_eq_some h

/-- In every run, a reset link is refused once a reset has used it, its lifetime has
passed or its account has been deleted; until then it is accepted and sets the password,
whatever other links of the account have been used in the meantime. -/
theorem reset_links_stand_alone (env : Env) (now : Nat) {users : List User} (husers : TableOk users)
    (actions : List Action) (hfresh : Fresh (actions.flatMap Action.requests)) :
    let t := (Trace.start now users).after env actions
    ∀ x u s, LinkSent t.log false x u s → ∀ newPassword salt,
      (LinkUsed t.log false x ∨ s + linkSeconds env false ≤ t.world.now ∨ t.world.userById u = none →
        serve env t.world (.resetPassword x newPassword salt) =
          (.error (.invalidTokenError "Reset link is invalid or has expired."), t.world)) ∧
      (¬ LinkUsed t.log false x → t.world.now < s + linkSeconds env false →
        t.world.userById u ≠ none →
        (serve env t.world (.resetPassword x newPassword salt)).1 = .ok .none ∧
        ∀ row ∈ (serve env t.world (.resetPassword x newPassword salt)).2.users, row.id = u →
          row.passwordHash = env.hash newPassword salt) := by
  intro t x u s hsent newPassword salt
  have hlinks : Links env t := links_after env now husers actions hfresh
  have hledger : Ledger env t := ledger_after env now husers actions hfresh
  rw [serve_resetPassword]
  constructor
  · intro h
    by_cases hgone : LinkUsed t.log false x ∨ s + linkSeconds env false ≤ t.world.now
    · have hnone : t.world.redis.look t.world.now (pwdResetKey x) = none := by
        rcases hgone with hused | hlate
        · exact hlinks.used false x hused
        · exact hlinks.expired false x u s hsent hlate
      rw [text_of_look_none hnone]
    · have huser : t.world.userById u = none := by
        rcases h with h | h | h
        · exact absurd (.inl h) hgone
        · exact absurd (.inr h) hgone
        · exact h
      rw [not_or, Nat.not_le] at hgone
      have hlive := hlinks.live false x u s hsent hgone.1 hgone.2
      change t.world.redis.look t.world.now (pwdResetKey x) = _ at hlive
      simp only [text_of_look hlive, UUID.parse_str, huser]
  · intro hunused hahead huser
    obtain ⟨user, huser⟩ := Option.ne_none_iff_exists'.mp huser
    have hlive := hlinks.live false x u s hsent hunused hahead
    change t.world.redis.look t.world.now (pwdResetKey x) = _ at hlive
    simp only [text_of_look hlive, UUID.parse_str, huser]
    refine ⟨trivial, ?_⟩
    intro row hrow hid
    obtain ⟨old, hold, rfl⟩ := List.mem_map.mp hrow
    rw [(applyRow_keeps t.world.now old _).1] at hid
    have hsame : old = user := by
      refine hledger.table.ids.eq_of_key hold (World.userById_mem huser) ?_
      rw [hid, World.id_of_userById huser]
    subst hsame
    by_cases hh : old.passwordHash = env.hash newPassword salt <;> simp [UserWrite.applyRow, hh]

/-- Ada has asked for two links and used the first: it is refused from then on. -/
theorem reset_links_stand_alone_used :
    let t := (Trace.start 1000 []).after plainEnv (adaJoins ++
      [.request (.requestPasswordReset "ada@example.com" "x2"),
       .request (.resetPassword "x1" "battery staple" "s1"), .wait 60])
    serve plainEnv t.world (.resetPassword "x1" "hunter two" "s2") =
      (.error (.invalidTokenError "Reset link is invalid or has expired."), t.world) := by
  intro t
  refine (reset_links_stand_alone plainEnv 1000 tableOk_nil (adaJoins ++
    [.request (.requestPasswordReset "ada@example.com" "x2"),
     .request (.resetPassword "x1" "battery staple" "s1"), .wait 60]) (by decide +kernel) "x1"
    (plainUuid .zero .zero) 1060 ?_ "hunter two" "s2").1 (.inl ?_)
  · refine ⟨_, List.mem_cons_of_mem _ (List.mem_cons_of_mem _ List.mem_cons_self), ?_, ?_⟩
    · exact ⟨adaVerified, rfl, by decide +kernel⟩
    · decide +kernel
  · exact ⟨_, List.mem_cons_self, by decide +kernel, _, _, rfl⟩

/-- Ada has asked for two links. She resets her password with the first, and then the
second, sent before that reset, changes it again. -/
theorem second_link_resets :
    let t := (Trace.start 1000 []).after plainEnv (adaJoins ++
      [.request (.requestPasswordReset "ada@example.com" "x2"),
       .request (.resetPassword "x1" "battery staple" "s1")])
    (ResetIssued t.log "x1" ada.id ∧ ResetIssued t.log "x2" ada.id ∧ LinkUsed t.log false "x1") ∧
      (serve plainEnv t.world (.resetPassword "x2" "hunter two" "s2")).1 = .ok .none ∧
      (serve plainEnv t.world (.resetPassword "x2" "hunter two" "s2")).2.users.map (·.passwordHash) ≠
        t.world.users.map (·.passwordHash) := by
  intro t
  refine ⟨⟨?_, ?_, ?_⟩, by decide +kernel, by decide +kernel⟩
  · refine ⟨_, List.mem_cons_of_mem _ (List.mem_cons_of_mem _ List.mem_cons_self), adaVerified, ?_, rfl⟩
    decide +kernel
  · refine ⟨_, List.mem_cons_of_mem _ List.mem_cons_self, adaVerified, ?_, rfl⟩
    decide +kernel
  · exact ⟨_, List.mem_cons_self, by decide +kernel, _, _, rfl⟩

end TaskMgtApp.Auth
