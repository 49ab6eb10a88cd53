import S2Script.LoaderWorker

/-! The limits of the asynchronous services, as they are configured and checked at the start. -/
namespace S2Script

structure AsyncPolicy where
  jobsGlobal : Nat := 512
  jobsPerOwner : Nat := 64
  inputBytes : Nat := 32 * 2 ^ 20
  ownerInputBytes : Nat := 8 * 2 ^ 20
  completionBytes : Nat := 16 * 2 ^ 20
  failureBytes : Nat := 4096
  socketsGlobal : Nat := 128
  socketsPerOwner : Nat := 16
  sqliteGlobal : Nat := 32
  sqlitePerOwner : Nat := 4
  poolsGlobal : Nat := 16
  poolsPerOwner : Nat := 4
  socketOutItems : Nat := 256
  socketOutBytes : Nat := 2 ^ 20
  outboundBytes : Nat := 16 * 2 ^ 20
  inboundItems : Nat := 2048
  inboundBytes : Nat := 16 * 2 ^ 20
  timersGlobal : Nat := 4096
  timersPerOwner : Nat := 512
  workerQueueItems : Nat := 256
  sqliteQueueItems : Nat := 64
  httpBodyBytes : Nat := 10 * 2 ^ 20
  inputItemBytes : Nat := 8 * 2 ^ 20
  dbResultRows : Nat := 10000
  dbResultBytes : Nat := 8 * 2 ^ 20
  cookieVersions : Nat := 4096
  cookieBytes : Nat := 4 * 2 ^ 20
  cookieWriteBytes : Nat := 64 * 2 ^ 10
  frameItems : Nat := 256
  frameBytes : Nat := 2 * 2 ^ 20
  framePollItems : Nat := 256
  frameSoftUs : Nat := 2000
  loader : LoaderWorker.LoaderPolicy := {}

namespace AsyncPolicy

def fields (policy : AsyncPolicy) : List Nat :=
  [policy.jobsGlobal,policy.jobsPerOwner,policy.inputBytes,policy.ownerInputBytes,policy.completionBytes,
    policy.failureBytes,policy.socketsGlobal,policy.socketsPerOwner,policy.sqliteGlobal,policy.sqlitePerOwner,
    policy.poolsGlobal,policy.poolsPerOwner,policy.socketOutItems,policy.socketOutBytes,policy.outboundBytes,
    policy.inboundItems,policy.inboundBytes,policy.timersGlobal,policy.timersPerOwner,policy.workerQueueItems,
    policy.sqliteQueueItems,policy.httpBodyBytes,policy.inputItemBytes,policy.dbResultRows,policy.dbResultBytes,
    policy.cookieVersions,policy.cookieBytes,policy.cookieWriteBytes,policy.frameItems,policy.frameBytes,
    policy.framePollItems]

/-- Every limit is positive and safely sized, and no share exceeds the whole it is taken from. -/
def validate (policy : AsyncPolicy) : Bool :=
  256 ≤ policy.failureBytes &&
    policy.fields.all (fun n => 0 < n && n ≤ LoaderWorker.LoaderPolicy.safeSize) &&
    0 < policy.frameSoftUs &&
    policy.jobsPerOwner ≤ policy.jobsGlobal &&
    policy.ownerInputBytes ≤ policy.inputBytes &&
    policy.socketsPerOwner ≤ policy.socketsGlobal &&
    policy.sqlitePerOwner ≤ policy.sqliteGlobal &&
    policy.poolsPerOwner ≤ policy.poolsGlobal &&
    policy.timersPerOwner ≤ policy.timersGlobal &&
    policy.inputItemBytes ≤ policy.ownerInputBytes &&
    policy.cookieWriteBytes ≤ policy.cookieBytes &&
    policy.jobsGlobal * policy.failureBytes ≤ LoaderWorker.usizeMax &&
    policy.jobsGlobal * policy.failureBytes ≤ policy.completionBytes &&
    policy.socketOutBytes ≤ policy.outboundBytes &&
    policy.loader.validate.isOk

/-- What the cookie outbox takes from a policy that was validated. -/
structure CookieLimits (policy : AsyncPolicy) : Prop where
  versions : 0 < policy.cookieVersions
  bytes : policy.cookieBytes ≤ LoaderWorker.LoaderPolicy.safeSize
  writes : policy.cookieWriteBytes ≤ policy.cookieBytes

theorem cookieLimits {policy : AsyncPolicy} (valid : policy.validate = true) : policy.CookieLimits := by
  simp only [validate,Bool.and_eq_true,List.all_eq_true,decide_eq_true_eq] at valid
  have sized := valid.1.1.1.1.1.1.1.1.1.1.1.1.1.2
  exact {
    versions := (sized policy.cookieVersions (by simp [fields])).1
    bytes := (sized policy.cookieBytes (by simp [fields])).2
    writes := valid.1.1.1.1.2 }

end AsyncPolicy

end S2Script
