import TaskMgtApp.Auth.Merges
import TaskMgtApp.Work.Merges

/-!
# No change to another column is lost

Requests write back only what they were given: a PATCH the fields of its body, a DELETE
`deleted_at`, `verify_email` and `reset_password` one attribute each. So those that change
different columns of a row of `users`, `projects` or `tasks` do not undo each other's
changes, however old the copies are that they work on.
-/
namespace TaskMgtApp

open TaskMgtApp.Common
open TaskMgtApp.Lib.Interleaving TaskMgtApp.Lib.Rows
open TaskMgtApp.Lib.ExpiringStore (Store)

/-- Requests that change different columns of an active row: in whatever order their
commands come, the row has what those that have committed wrote to it, and every other
column but `updated_at` is as it was. -/
theorem changes_merge {ι : Type} [DecidableEq ι] (schedule : List (Act ι Nat)) :
    (∀ (env : Work.Env) (w : Work.World) (requests : ι → UUID × Work.Request) (base : Work.Row),
      w.Valid → base ∈ w.rows → base.deletedAt = none → Work.DisjointColumns base requests →
      let c := (Work.beside w requests).run (Work.machine env) schedule
      (∃ row ∈ c.world.rows, row.id = base.id) ∧
        ∀ row ∈ c.world.rows, row.id = base.id → Work.RowMerges base requests c row) ∧
    (∀ (env : Auth.Env) (w : Auth.World) (requests : ι → Auth.Request) (base : Auth.User),
      Keyed Auth.User.id w.users → base ∈ w.users →
      let c := (Auth.beside env w requests).run (Auth.machine env) schedule
      Auth.DisjointUpdates env base.id requests c →
      (∃ row ∈ c.world.users, row.id = base.id) ∧
        ∀ row ∈ c.world.users, row.id = base.id → Auth.UserMerges env base requests c row) := by
  constructor
  · intro env w requests base hvalid hbase hactive hdisjoint
    exact Work.rows_merge env w hvalid requests base hbase hactive hdisjoint schedule
  · intro env w requests base hkeyed hbase
    exact Auth.users_merge env w hkeyed requests base hbase schedule

/-- Ada sets the status of her task and clears its description, and deletes it. -/
def patchAndDelete : Bool → UUID × Work.Request
  | true => (plainUuid .zero .zero, .updateTask (plainUuid .two .zero)
      ⟨none, some none, some (some .done), none, none⟩)
  | false => (plainUuid .zero .zero, .deleteTask (plainUuid .two .zero))

/-- Ada redeems the link of her registration and one that resets her password. -/
def verifyAndReset : Bool → Auth.Request
  | true => .verifyEmail "v"
  | false => .resetPassword "x" "battery staple" "s1"

/-- Ada has not redeemed either link. -/
def adaUnverified : Auth.World where
  now := 1000
  redis := (Store.empty.setEx 1000 (Auth.emailVerifyKey "v") (.text Auth.ada.id.str) 86400).setEx
    1000 (Auth.pwdResetKey "x") (.text Auth.ada.id.str) 1800
  users := [{ Auth.ada with isEmailVerified := false }]
  issued := []

/-- Two requests issue one command each in turn. -/
def inTurns : List (Act Bool Nat) := (List.replicate 9 [.step true, .step false]).flatten

/-- Both pairs, one command each in turn, so that both requests of a pair load the row before
either commits. -/
theorem changes_merge_inTurns :
    (let c := (Work.beside Work.oneTask patchAndDelete).run (Work.machine Work.plainEnv) inTurns
     (∀ row ∈ c.world.rows, row.id = (Work.Row.task Work.theTask).id →
       Work.RowMerges (.task Work.theTask) patchAndDelete c row) ∧
     c.world.tasks = [{ Work.theTask with
       status := some .done, description := none, deletedAt := some 100, updatedAt := 100 }]) ∧
    (let c := (Auth.beside Auth.plainEnv adaUnverified verifyAndReset).run
       (Auth.machine Auth.plainEnv) inTurns
     (∀ row ∈ c.world.users, row.id = Auth.ada.id →
       Auth.UserMerges Auth.plainEnv { Auth.ada with isEmailVerified := false } verifyAndReset c
         row) ∧
     c.world.users = [{ Auth.ada with
       isEmailVerified := true, passwordHash := "s1$battery staple", updatedAt := 1000 }]) := by
  refine ⟨⟨?_, by decide +kernel⟩, ?_, by decide +kernel⟩
  · have hdisjoint : Work.DisjointColumns (.task Work.theTask) patchAndDelete := by
      intro i k hne
      cases i <;> cases k <;> first | exact absurd rfl hne | decide +kernel
    exact ((changes_merge inTurns).1 Work.plainEnv Work.oneTask patchAndDelete (.task Work.theTask)
      (by decide +kernel) (by decide +kernel) rfl hdisjoint).2
  · refine ((changes_merge inTurns).2 Auth.plainEnv adaUnverified verifyAndReset
      { Auth.ada with isEmailVerified := false } (List.nodup_singleton _)
      List.mem_cons_self ?_).2
    intro i k hne _ _
    cases i <;> cases k <;> first | exact absurd rfl hne | decide +kernel

end TaskMgtApp
