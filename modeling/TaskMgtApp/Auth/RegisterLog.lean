import TaskMgtApp.Auth.RegisterRace
import TaskMgtApp.Log.Middleware

/-!
# What the log shows of a registration

The design forbids passwords and password hashes in the log, and the formatter sees to
it by the names of keys. The INSERT of `register` binds the hash. Where the database
refuses it, no handler takes the exception, and the middleware logs the traceback,
which ends with the parameters of the statement, under the key `exc_info`. The line of a
registration that is answered shows a secret only if the client has sent it outside the body.
-/
namespace TaskMgtApp.Auth

open TaskMgtApp.Common TaskMgtApp.Log
open TaskMgtApp.Lib.Json (escaped)
open TaskMgtApp.Lib.Program.Prog
open TaskMgtApp.Lib.Interleaving
open TaskMgtApp.Lib.ExpiringStore (Store)

/-! ## What `RegisterRequest` admits -/

/-- `_PASSWORD_RULES`, and the lengths of `StrongPassword`. -/
def strongPassword (value : String) : Bool :=
  8 ≤ value.length && value.length ≤ 128 &&
    value.toList.any (fun c => 'A' ≤ c && c ≤ 'Z') && value.toList.any (fun c => 'a' ≤ c && c ≤ 'z') &&
    value.toList.any (fun c => '0' ≤ c && c ≤ '9') &&
    value.toList.any fun c =>
      !('A' ≤ c && c ≤ 'Z') && !('a' ≤ c && c ≤ 'z') && !('0' ≤ c && c ≤ '9')

/-- `RegisterRequest`; `emailStr` is the check of `EmailStr`. -/
def admitsRegister (emailStr : String → Bool) (email password fullName : String) : Bool :=
  emailStr email && strongPassword password && 1 ≤ fullName.length && fullName.length ≤ 255

theorem telling_of_strong {value : String} (h : strongPassword value = true) :
    telling value.toList = true := by
  simp only [strongPassword, Bool.and_eq_true] at h
  obtain ⟨⟨⟨⟨-, hupper⟩, hlower⟩, -⟩, -⟩ := h
  rw [telling, hupper, hlower, Bool.and_self, Bool.or_true]

/-- A hash as it is stored: plain text in which its parts follow dollar signs. -/
structure Encoded (hash : String) : Prop where
  plain : Plain hash
  dollar : '$' ∈ hash.toList

theorem Encoded.telling {hash : String} (h : Encoded hash) : telling hash.toList = true := by
  rw [Log.telling, List.contains_iff_mem.mpr h.dollar, Bool.true_or]

/-! ## From the request to its line -/

/-- A handler of the application answers the exception. -/
def Exc.handled : Exc → Bool
  | .pyJWTError | .valueError | .redisError | .dbError | .responseValidationError => false
  | _ => true

/-- What the middleware gets from the application. -/
def Request.callNext (r : Request) : Except Exc Reply → Except Exc Response
  | .ok reply => .ok (r.respond (.ok reply))
  | .error exc => if Exc.handled exc then .ok (Exc.response exc) else .error exc

/-- The strings bound in the statement of a command. -/
def Cmd.boundParameters (env : Env) : Cmd → List String
  | .getById id => [id.str]
  | .getByEmail email => [env.lower email]
  | .add id email passwordHash fullName => [id.str, email, passwordHash, fullName]
  | _ => []

/-- The formatter, the traceback of an exception that a statement with these bound
parameters has raised, and what each request brings to the middleware. -/
structure Logging (ι : Type) where
  serialize : LogRecord String → String
  traceback : Exc → List String → String
  arrival : ι → Arrival

section Lines
variable {ι : Type} [DecidableEq ι] (env : Env) (logging : Logging ι) (requests : ι → Request)

/-- The latest command of the request `i` that has raised. -/
def raisedBy (c : Threads ι) (i : ι) : Option Cmd :=
  (c.log.find? fun e => decide (e.thread = i) && !e.reply.isOk).map (·.command)

/-- The traceback of an exception that has left the request `i`. -/
def tracebackOf (c : Threads ι) (i : ι) (exc : Exc) : String :=
  logging.traceback exc (((raisedBy c i).map (Cmd.boundParameters env)).getD [])

/-- The lines that the middleware has logged for the request `i`. -/
def requestLines (c : Threads ι) (i : ι) : List String :=
  match c.outcome i with
  | none => []
  | some o =>
    (dispatch Response.status (tracebackOf env logging c i) (logging.arrival i)
      ((requests i).callNext o)).1.map (formatLine asciiLower logging.serialize)

omit [DecidableEq ι] in
/-- The line of a request that is answered with the response. -/
def completedLine (i : ι) (response : Response) : String :=
  formatLine asciiLower logging.serialize (requestCompleted (logging.arrival i) response.status)

end Lines

section Registrations
variable {ι : Type} [DecidableEq ι] (env : Env) (logging : Logging ι)
  (email password fullName : ι → String) (d : ι → RegisterDraws)

/-- The raw password of the request `i` and the hash computed from it. -/
def secrets (i : ι) : List String := [password i, env.hash (password i) (d i).salt]

/-- No line logged so far contains a secret of a registration. -/
def NoSecretLogged (c : Threads ι) : Prop :=
  ∀ i k, ∀ line ∈ requestLines env logging (registrations email password fullName d) c k,
    ∀ secret ∈ secrets env password d i, ¬ Contains line secret

/-- No request brings a secret along outside its body: in its id, method or path, or in the time. -/
def Unsent (escape : Char → List Char) : Prop :=
  ∀ i k, ∀ secret ∈ secrets env password d i, ¬ (logging.arrival k).Brings escape secret

/-- A password with double quotes in it has a piece between them that no line of an answered
request shows: no request brings it, and it is in no fixed word of the line. -/
def QuotesApart (escape : Char → List Char) : Prop :=
  ∀ i k, '"' ∈ (password i).toList → ∃ piece, Contains (password i) piece ∧ '"' ∉ piece.toList ∧
    ¬ (logging.arrival k).Brings escape piece ∧
    ∀ word ∈ (logging.arrival k).words, ¬ Contains word piece

end Registrations

/-- The table takes the row, if the command inserts one. -/
def Cmd.taken (l : Session) (w : World) : Cmd → Bool
  | .add id email passwordHash fullName =>
      World.accepts (visibleRows l w) (w.newUser id email passwordHash fullName)
  | _ => true

/-- A row that the step inserts is one that the table takes. -/
def TakesInsert {ι : Type} (c : Threads ι) : Act ι Nat → Prop
  | .drift _ => True
  | .step i => (c.next i).all (Cmd.taken (c.threads i).locals c.world) = true

instance {ι : Type} (c : Threads ι) : (a : Act ι Nat) → Decidable (TakesInsert c a)
  | .drift _ => instDecidableTrue
  | .step i => inferInstanceAs (Decidable ((c.next i).all _ = true))

/-! ## Refused inserts -/

section Runs
variable {ι : Type} [DecidableEq ι] {env : Env} {email password fullName : ι → String}
  {d : ι → RegisterDraws} {φ : ι → Signup} {c : Threads ι}

/-- The moves and the ends of each of the registrations. -/
abbrev AllSignUp (env : Env) (email password fullName : ι → String) (d : ι → RegisterDraws)
    (φ : ι → Signup) (c : Threads ι) : Prop :=
  AllObey (machine env)
    (fun i => SignupMove env (env.lower (email i)) (password i) (fullName i) (d i))
    (fun i => SignupEnd (d i)) φ c

omit [DecidableEq ι] in
theorem registrations_start (w : World) :
    AllSignUp env email password fullName d (fun _ => .asking)
      (beside env w (registrations email password fullName d)) :=
  fun i => registrations_obey env (email i) (password i) (fullName i) (d i)

/-- A failed registration has raised with the INSERT of its row. -/
def Blames (env : Env) (email password fullName : ι → String) (d : ι → RegisterDraws)
    (φ : ι → Signup) (c : Threads ι) : Prop :=
  ∀ i, φ i = .failed → raisedBy c i = some (.add (d i).userId (env.lower (email i))
    (env.hash (password i) (d i).salt) (fullName i))

theorem raisedBy_issue_of_ne {i j : ι} (hj : j ≠ i) (cmd : Cmd)
    (k : Except Exc cmd.Val → AuthM Reply) :
    raisedBy (c.issue (machine env) i cmd k) j = raisedBy c j := by
  have hne : ¬ i = j := fun h => hj h.symm
  simp [raisedBy, hne]

theorem Blames.move (h : Blames env email password fullName d φ c) {i : ι} {cmd : Cmd}
    (k : Except Exc cmd.Val → AuthM Reply) {φ' : Signup}
    (hm : SignupMove env (env.lower (email i)) (password i) (fullName i) (d i) (φ i) cmd
      ((c.threads i).locals, c.world) φ') :
    Blames env email password fullName d (Function.update φ i φ')
      (c.issue (machine env) i cmd k) := by
  intro j hj
  by_cases hji : j = i
  · subst hji
    rw [Function.update_self] at hj
    subst hj
    have hbefore := h j
    generalize hψ : φ j = ψ at hm hbefore
    cases hm with
    | reject haccepts =>
      have hreply : ((machine env).exec (.add (d j).userId (env.lower (email j))
          (env.hash (password j) (d j).salt) (fullName j))
          ((c.threads j).locals, c.world)).1 = .error .dbError := by
        simp [machine, exec, haccepts]
      simp [raisedBy, hreply, Except.isOk, Except.toBool]
    | rollbackFailed =>
      have hreply : ((machine env).exec .rollback ((c.threads j).locals, c.world)).1 = .ok () := rfl
      rw [← hbefore rfl]
      simp [raisedBy, hreply, Except.isOk, Except.toBool]
  · rw [Function.update_of_ne hji] at hj
    rw [raisedBy_issue_of_ne hji]
    exact h j hj

/-- A registration fails only at an insert that the table does not take. -/
theorem SignupMove.not_failed {e p n : String} {draws : RegisterDraws} {ψ ψ' : Signup} {cmd : Cmd}
    {l : Session} {w : World} (hm : SignupMove env e p n draws ψ cmd (l, w) ψ')
    (hψ : ψ ≠ .failed) (htaken : cmd.taken l w = true) : ψ' ≠ .failed := by
  cases hm with
  | reject haccepts =>
    rw [Cmd.taken, haccepts] at htaken
    cases htaken
  | rollbackFailed => exact absurd rfl hψ
  | _ => simp

/-- And it fails there. -/
theorem SignupMove.failed {e p n : String} {draws : RegisterDraws} {ψ ψ' : Signup} {cmd : Cmd}
    {l : Session} {w : World} (hm : SignupMove env e p n draws ψ cmd (l, w) ψ')
    (htaken : cmd.taken l w = false) : ψ' = .failed := by
  cases hm with
  | reject haccepts => rfl
  | insert haccepts =>
    rw [Cmd.taken, haccepts] at htaken
    cases htaken
  | _ => cases htaken

theorem requestLines_of_answered {logging : Logging ι} {requests : ι → Request} {k : ι}
    {o : Except Exc Reply} {response : Response} (ho : c.outcome k = some o)
    (hresponse : (requests k).callNext o = .ok response) :
    requestLines env logging requests c k = [completedLine logging k response] := by
  simp only [requestLines, ho, hresponse, dispatch, List.map_cons, List.map_nil, completedLine]

theorem requestLines_of_failed {logging : Logging ι} {requests : ι → Request} {k : ι}
    (ho : c.outcome k = some (.error .dbError)) :
    requestLines env logging requests c k = [formatLine asciiLower logging.serialize
      (requestFailed (logging.arrival k) (tracebackOf env logging c k .dbError))] := by
  simp [requestLines, ho, Request.callNext, Exc.handled, dispatch]

/-- A registration that has not failed is answered. -/
theorem SignupEnd.answered {draws : RegisterDraws} {ψ : Signup} {o : Except Exc Reply}
    (h : SignupEnd draws ψ o) (hψ : ψ ≠ .failed) (r : Request) :
    ∃ response, r.callNext o = .ok response ∧ response.status ∈ [201, 409] := by
  cases h with
  | refused => exact ⟨_, rfl, by decide⟩
  | failed => exact absurd rfl hψ
  | committed => exact ⟨_, rfl, List.mem_cons_self⟩

omit [DecidableEq ι] in
/-- The line of an answered registration shows no secret that was not sent. -/
theorem completedLine_hides {logging : Logging ι} {escape : Char → List Char}
    (hjson : WritesJson escape logging.serialize) {emailStr : String → Bool}
    (hadmits : ∀ i, admitsRegister emailStr (email i) (password i) (fullName i) = true)
    (hencoded : ∀ i, Encoded (env.hash (password i) (d i).salt))
    (hunsent : Unsent env logging password d escape) (hquotes : QuotesApart logging password escape)
    {i k : ι} {response : Response} (hstatus : response.status ∈ [201, 409]) {secret : String}
    (hsecret : secret ∈ secrets env password d i) :
    ¬ Contains (completedLine logging k response) secret := by
  have hstrong : strongPassword (password i) = true := by
    have h := hadmits i
    simp only [admitsRegister, Bool.and_eq_true] at h
    exact h.1.1.2
  have hbrings := hunsent i k secret hsecret
  rw [secrets, List.mem_cons, List.mem_singleton] at hsecret
  rcases hsecret with rfl | rfl
  · by_cases hquote : '"' ∈ (password i).toList
    · obtain ⟨piece, hpiece, hpieceQuote, hpieceBrings, hwords⟩ := hquotes i k hquote
      intro hcontains
      exact requestCompleted_hides hjson hstatus hpieceQuote hpieceBrings hwords
        (List.IsInfix.trans hpiece hcontains)
    · exact requestCompleted_hides_telling hjson hstatus (telling_of_strong hstrong) hquote hbrings
  · have hquote : '"' ∉ (env.hash (password i) (d i).salt).toList := fun hc =>
      absurd ((hencoded i).plain _ hc) (by decide)
    exact requestCompleted_hides_telling hjson hstatus (hencoded i).telling hquote hbrings

/-- The line of a registration whose insert was refused contains the hash. -/
theorem hash_logged {logging : Logging ι} {escape : Char → List Char}
    (hjson : WritesJson escape logging.serialize)
    (htraceback : ShowsParameters (logging.traceback .dbError)) {i : ι}
    (hplain : Plain (env.hash (password i) (d i).salt))
    (hblames : Blames env email password fullName d φ c) (hi : φ i = .failed)
    (ho : c.outcome i = some (.error .dbError)) :
    ∃ line ∈ requestLines env logging (registrations email password fullName d) c i,
      Contains line (env.hash (password i) (d i).salt) := by
  rw [requestLines_of_failed ho, tracebackOf, hblames i hi]
  refine ⟨_, List.mem_singleton_self _, ?_⟩
  exact requestFailed_shows hjson htraceback _ (by simp [Cmd.boundParameters]) hplain

/-- In a run whose inserts are all taken nobody fails. -/
theorem nobody_fails {w : World} {schedule : List (Act ι Nat)}
    (htakes : (beside env w (registrations email password fullName d)).Along (machine env)
      TakesInsert schedule) :
    ∃ φ, AllSignUp env email password fullName d φ
        ((beside env w (registrations email password fullName d)).run (machine env) schedule) ∧
      ∀ i, φ i ≠ .failed := by
  obtain ⟨φ, hobey, hJ, -⟩ := run_invariant (J := fun (φ : ι → Signup) _ => ∀ i, φ i ≠ .failed)
    (fun φ c n _ hJ _ => hJ)
    (fun φ c i cmd k φ' _ hJ hp hm htakes => by
      rw [Function.forall_update_iff φ fun _ ψ => ψ ≠ Signup.failed]
      refine ⟨hm.not_failed (hJ i) ?_, fun j _ => hJ j⟩
      simpa [TakesInsert, Config.next, hp, next] using htakes)
    (registrations_start w) (fun i => by simp) htakes
  exact ⟨φ, hobey, hJ⟩

/-- In a run with a refused insert the request that made it ends with the exception of the
database, which names the INSERT. -/
theorem refusal_raises {w : World} {schedule : List (Act ι Nat)}
    (hnot : ¬ (beside env w (registrations email password fullName d)).Along (machine env)
      TakesInsert schedule)
    (hended : ∀ i, (((beside env w (registrations email password fullName d)).run (machine env)
      schedule).outcome i).isSome) :
    ∃ φ i, Blames env email password fullName d φ
        ((beside env w (registrations email password fullName d)).run (machine env) schedule) ∧
      φ i = .failed ∧ ((beside env w (registrations email password fullName d)).run (machine env)
        schedule).outcome i = some (.error .dbError) := by
  obtain ⟨as, a, bs, rfl, -, ha⟩ := Config.exists_of_not_along hnot
  obtain ⟨φ, hobey, hblames⟩ := run_invariant_forall
    (J := fun φ c => Blames env email password fullName d φ c)
    (fun φ c n _ hJ => hJ) (fun φ c i cmd k φ' _ hJ _ hm => hJ.move k hm)
    (registrations_start w) (fun i hi => by cases hi) as
  rw [Config.run_append, Config.run_cons] at hended ⊢
  cases a with
  | drift n => exact absurd trivial ha
  | step i =>
    generalize (beside env w (registrations email password fullName d)).run (machine env) as = c₀
      at hobey hblames ha hended ⊢
    cases hp : (c₀.threads i).prog with
    | done o => exact absurd (by simp [TakesInsert, Config.next, hp, next]) ha
    | call cmd k =>
      rw [Config.step_of_call hp] at hended ⊢
      have htaken : cmd.taken (c₀.threads i).locals c₀.world = false := by
        simpa [TakesInsert, Config.next, hp, next] using ha
      obtain ⟨φ', hm, hobey'⟩ := hobey.issue hp
      obtain rfl := hm.failed htaken
      -- from here on the request stays failed
      obtain ⟨ψ, hψ, hfailed, hblames'⟩ := run_invariant_forall
        (J := fun (ψ : ι → Signup) c => ψ i = .failed ∧ Blames env email password fullName d ψ c)
        (fun ψ c n _ hJ => hJ)
        (fun ψ c j cmd k ψ' _ hJ _ hm => by
          refine ⟨?_, hJ.2.move k hm⟩
          by_cases hij : i = j
          · subst hij
            rw [Function.update_self]
            rw [hJ.1] at hm
            cases hm
            rfl
          · rw [Function.update_of_ne hij]
            exact hJ.1)
        hobey' ⟨Function.update_self .., hblames.move k hm⟩ bs
      refine ⟨ψ, i, hblames', hfailed, ?_⟩
      obtain ⟨o, ho⟩ := Option.isSome_iff_exists.mp (hended i)
      have hfinal := hψ.final ho
      rw [hfailed] at hfinal
      cases hfinal
      exact ho

end Runs

/-- Any number of admitted registrations, in any state and in every order of their commands that
the index admits. As long as the table takes every row that one of them inserts, the log shows
no password and no hash of any of them, unless a client has sent it outside the body of a
request or a password has double quotes in it and the pieces of the line between them. And
once all have ended, a log without a secret means that the table took every row and that
no client had sent one. -/
theorem register_log_lines {ι : Type} [Fintype ι] [DecidableEq ι] (env : Env) (w : World)
    (email password fullName : ι → String) (d : ι → RegisterDraws) (logging : Logging ι)
    (emailStr : String → Bool)
    (hadmits : ∀ i, admitsRegister emailStr (email i) (password i) (fullName i) = true)
    (escape : Char → List Char) (hjson : WritesJson escape logging.serialize)
    (htraceback : ShowsParameters (logging.traceback .dbError))
    (hencoded : ∀ i, Encoded (env.hash (password i) (d i).salt)) (schedule : List (Act ι Nat)) :
    let start := beside env w (registrations email password fullName d)
    let taken := start.admitted (machine env) AwaitsIndex schedule
    let c := start.run (machine env) taken
    (start.Along (machine env) TakesInsert taken ∧ Unsent env logging password d escape ∧
        QuotesApart logging password escape →
      NoSecretLogged env logging email password fullName d c) ∧
    ((∀ i, (c.outcome i).isSome) → NoSecretLogged env logging email password fullName d c →
      start.Along (machine env) TakesInsert taken ∧ Unsent env logging password d escape) := by
  intro start taken c
  constructor
  · rintro ⟨htakes, hunsent, hquotes⟩ i k line hline secret hsecret
    obtain ⟨φ, hobey, hnot⟩ := nobody_fails htakes
    cases ho : c.outcome k with
    | none =>
      rw [requestLines, ho] at hline
      cases hline
    | some o =>
      obtain ⟨response, hresponse, hstatus⟩ := (hobey.final ho).answered (hnot k)
        (registrations email password fullName d k)
      rw [requestLines_of_answered ho hresponse, List.mem_singleton] at hline
      rw [hline]
      exact completedLine_hides hjson hadmits hencoded hunsent hquotes hstatus hsecret
  · intro hended hno
    have htakes : start.Along (machine env) TakesInsert taken := by
      by_contra hnot
      obtain ⟨φ, i, hblames, hi, ho⟩ := refusal_raises hnot hended
      obtain ⟨line, hline, hshows⟩ := hash_logged hjson htraceback (hencoded i).plain hblames hi ho
      exact hno i i line hline _ (by simp [secrets]) hshows
    refine ⟨htakes, fun i k secret hsecret hbrings => ?_⟩
    obtain ⟨φ, hobey, hnot⟩ := nobody_fails htakes
    obtain ⟨o, ho⟩ := Option.isSome_iff_exists.mp (hended k)
    obtain ⟨response, hresponse, -⟩ := (hobey.final ho).answered (hnot k)
      (registrations email password fullName d k)
    obtain ⟨text, htext, hcontains⟩ := hbrings
    refine hno i k (completedLine logging k response) ?_ secret hsecret
      (List.IsInfix.trans hcontains (requestCompleted_shows hjson htext))
    rw [requestLines_of_answered ho hresponse]
    exact List.mem_singleton_self _

/-! ### Two registrations -/

/-- As `plainEnv`, with a checksum of the password in the hash. -/
def checksumEnv : Env :=
  let hash (raw salt : String) : String :=
    "$toy$" ++ salt ++ "$" ++ toString (raw.toList.foldl (fun n c => (31 * n + c.toNat) % 1000003) 7)
  { plainEnv with
    hash := hash
    verify := fun raw stored =>
      stored == hash raw (String.ofList ((stored.toList.drop 5).takeWhile (· ≠ '$'))) }

def strongPasswords : Fin 2 → String
  | 0 => "Battery-Staple-1"
  | 1 => "Hunter\x22Two+2"

theorem strongPasswords_admitted (i : Fin 2) :
    admitsRegister (fun email => email.toList.contains '@') (twoSpellings i) (strongPasswords i)
      (twoNames i) = true := by
  revert i
  decide +kernel

def twoLogged : Logging (Fin 2) where
  serialize := quotesLine
  traceback _ := statementTraceback
  arrival _ :=
    { header := none
      uuid4 := plainUuid .three .three
      method := "POST"
      path := "/api/v1/auth/register"
      asctime := "2025-01-01 12:00:00,000"
      durationMs := "41.7"
      durationMs_numeral := by decide }

theorem strongPasswords_encoded (i : Fin 2) :
    Encoded (checksumEnv.hash (strongPasswords i) (twoSignups i).salt) := by
  refine ⟨?_, ?_⟩ <;> revert i <;> decide +kernel

/-- One after the other: both are answered, and the log shows nothing. -/
theorem register_log_lines_serial :
    NoSecretLogged checksumEnv twoLogged twoSpellings strongPasswords twoNames twoSignups
      ((beside checksumEnv nobody (registrations twoSpellings strongPasswords twoNames
        twoSignups)).run (machine checksumEnv) ((beside checksumEnv nobody (registrations twoSpellings
          strongPasswords twoNames twoSignups)).admitted (machine checksumEnv) AwaitsIndex
            (List.replicate 4 (.step 0) ++ List.replicate 2 (.step 1)))) := by
  have hlines := register_log_lines checksumEnv nobody twoSpellings strongPasswords twoNames
    twoSignups twoLogged (fun email => email.toList.contains '@') strongPasswords_admitted escapeQuotes
    writesJson_quotesLine showsParameters_statementTraceback strongPasswords_encoded
    (List.replicate 4 (.step 0) ++ List.replicate 2 (.step 1))
  refine hlines.1 ⟨?_, ?_, ?_⟩
  · decide +kernel
  · have hnone : ∀ i k, ∀ secret ∈ secrets checksumEnv strongPasswords twoSignups i,
        ∀ text ∈ (twoLogged.arrival k).texts, ¬ secret.toList <:+: escaped escapeQuotes text := by
      decide +kernel
    rintro i k secret hsecret ⟨text, htext, hcontains⟩
    exact hnone i k secret hsecret text htext (contains_written.mp hcontains)
  · intro i k hquote
    match i with
    | 0 => exact absurd hquote (by decide)
    | 1 =>
      have htexts : ∀ k, ∀ text ∈ (twoLogged.arrival k).texts,
          ¬ "Two+2".toList <:+: escaped escapeQuotes text := by
        decide +kernel
      have hwords : ∀ k, ∀ word ∈ (twoLogged.arrival k).words, ¬ Contains word "Two+2" := by
        decide +kernel
      refine ⟨"Two+2", by decide, by decide, ?_, hwords k⟩
      rintro ⟨text, htext, hcontains⟩
      exact htexts k text htext (contains_written.mp hcontains)

/-- Both look the address up before either inserts a row. The second insert is refused, and
the line of that request shows the hash of its password. -/
theorem register_log_lines_refused :
    let start := beside checksumEnv nobody (registrations twoSpellings strongPasswords twoNames
      twoSignups)
    let c := start.run (machine checksumEnv) (start.admitted (machine checksumEnv) AwaitsIndex
      [.step 0, .step 1, .step 0, .step 1, .step 0, .step 1, .step 0, .step 1, .step 1])
    (∀ i, admitsRegister (fun email => email.toList.contains '@') (twoSpellings i)
      (strongPasswords i) (twoNames i) = true) ∧
    ¬ NoSecretLogged checksumEnv twoLogged twoSpellings strongPasswords twoNames twoSignups c := by
  intro start c
  refine ⟨strongPasswords_admitted, fun hno => ?_⟩
  have hended : c.outcome 1 = some (.error .dbError) := by decide +kernel
  have hraised : raisedBy c 1 = some (.add (twoSignups 1).userId "ada@example.com"
      (checksumEnv.hash (strongPasswords 1) (twoSignups 1).salt) "Ada Lovelace") := by
    decide +kernel
  have hplain : Plain (checksumEnv.hash (strongPasswords 1) (twoSignups 1).salt) := by
    decide +kernel
  clear_value c
  have hbound : checksumEnv.hash (strongPasswords 1) (twoSignups 1).salt ∈
      [(twoSignups 1).userId.str, "ada@example.com",
        checksumEnv.hash (strongPasswords 1) (twoSignups 1).salt, "Ada Lovelace"] := by
    simp
  refine hno 1 1 _ ?_ _ (by simp [secrets])
    (requestFailed_shows writesJson_quotesLine showsParameters_statementTraceback (twoLogged.arrival 1)
      hbound hplain)
  rw [requestLines_of_failed hended, tracebackOf, hraised]
  exact List.mem_singleton_self _

end TaskMgtApp.Auth
