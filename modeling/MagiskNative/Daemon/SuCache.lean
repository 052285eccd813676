import Mathlib.Tactic

/-!
# The policy cache of the su daemon

The daemon keeps the policy of the last requester and takes it without a look into the database while it
is fresh. Times are nanoseconds since the daemon started.
-/

namespace MagiskNative.Daemon

/-- The code is what the database and the manager send, so it can be any number. -/
structure SuPolicy where
  repr : Int
  deriving DecidableEq, Repr

namespace SuPolicy

def query : SuPolicy := ⟨0⟩

def deny : SuPolicy := ⟨1⟩

def allow : SuPolicy := ⟨2⟩


end SuPolicy

structure RootSettings where
  policy : SuPolicy := .query
  log : Bool := true
  notify : Bool := true
  deriving DecidableEq, Repr

inductive RootAccess where
  | disabled
  | appsOnly
  | adbOnly
  | appsAndAdb
  deriving DecidableEq, Repr

inductive MultiuserMode where
  | ownerOnly
  | ownerManaged
  | user
  deriving DecidableEq, Repr

structure DbSettings where
  rootAccess : RootAccess := .appsAndAdb
  multiuserMode : MultiuserMode := .ownerOnly
  deriving DecidableEq, Repr

/-- What the database and the package manager answer. `none` is a failed query. -/
structure Database where
  settings : Option DbSettings
  policies : Int → Option (Option RootSettings)
  manager : Int → Int × String

structure AccessInfo where
  settings : RootSettings := {}
  timestamp : Nat
  deriving DecidableEq, Repr

structure SuInfo where
  uid : Int := -1
  evalUid : Int := -1
  mgrPkg : String := ""
  mgrUid : Int := -1
  access : AccessInfo
  deriving DecidableEq, Repr

def aidRoot : Int := 0

def aidShell : Int := 2000

def aidUserOffset : Int := 100000

def toAppId (uid : Int) : Int := uid.tmod aidUserOffset

def toUserId (uid : Int) : Int := uid.tdiv aidUserOffset

def freshTime : Nat := 3 * 10 ^ 9

def AccessInfo.isFresh (access : AccessInfo) (now : Nat) : Bool := now - access.timestamp < freshTime

def SuInfo.allow (uid : Int) (now : Nat) : SuInfo :=
  { uid, access := { settings := { policy := .allow, log := false, notify := false }, timestamp := now } }

def SuInfo.deny (uid : Int) (now : Nat) : SuInfo :=
  { uid, access := { settings := { policy := .deny, log := false, notify := false }, timestamp := now } }

namespace Database

variable (db : Database)

/-- A uid without a row keeps the default settings. -/
def getRootSettings (uid : Int) : Option RootSettings :=
  (db.policies uid).map fun row => row.getD {}

/-- The uid whose row counts; `none` if the user of `uid` has no access at all. -/
def evalUid (mode : MultiuserMode) (uid : Int) : Option Int :=
  match mode with
  | .ownerOnly => if toUserId uid ≠ 0 then none else some uid
  | .ownerManaged => some (toAppId uid)
  | .user => some uid

def rootAccessDenies (access : RootAccess) (uid : Int) : Bool :=
  match access with
  | .disabled => true
  | .adbOnly => uid ≠ aidShell
  | .appsOnly => uid = aidShell
  | .appsAndAdb => false

/-- `build_su_info` between the queries: `none` is an error of one of them. -/
def readSuInfo (uid : Int) (now : Nat) : Option SuInfo := do
  let cfg ← db.settings
  match evalUid cfg.multiuserMode uid with
  | none => return .deny uid now
  | some evalUid =>
      let access ← db.getRootSettings evalUid
      let (mgrUid, mgrPkg) :=
        if access.policy = .query || access.log || access.notify then db.manager (toUserId evalUid)
        else (-1, "")
      if toAppId uid = toAppId mgrUid then return .allow uid now
      else if rootAccessDenies cfg.rootAccess uid then return .deny uid now
      else if access.policy = .query ∧ mgrUid < 0 then return .deny uid now
      else return { uid, evalUid, mgrPkg, mgrUid, access := { settings := access, timestamp := now } }

def buildSuInfo (uid : Int) (now : Nat) : SuInfo := (db.readSuInfo uid now).getD (.deny uid now)

variable {db}

theorem uid_of_readSuInfo {uid : Int} {now : Nat} {info : SuInfo}
    (hread : db.readSuInfo uid now = some info) : info.uid = uid := by
  simp only [readSuInfo, Option.bind_eq_bind, Option.bind_eq_some_iff] at hread
  obtain ⟨cfg, -, hread⟩ := hread
  split at hread
  · cases hread
    rfl
  · obtain ⟨access, -, hread⟩ := Option.bind_eq_some_iff.1 hread
    split_ifs at hread <;> cases hread <;> rfl

theorem uid_buildSuInfo (db : Database) (uid : Int) (now : Nat) :
    (db.buildSuInfo uid now).uid = uid := by
  rw [buildSuInfo]
  cases hread : db.readSuInfo uid now with
  | none => rfl
  | some info => exact uid_of_readSuInfo hread

end Database

/-- A request with the time since the event before it, the time that the talk with the manager takes and
what the manager answers if it is asked. -/
structure Request where
  after : Nat
  uid : Int
  talk : Nat
  answer : SuPolicy
  deriving DecidableEq, Repr

inductive Event where
  | change (after : Nat) (db : Database)
  | request (r : Request)

structure SuDaemon where
  now : Nat := 0
  db : Database
  cachedSuInfo : SuInfo := { access := { timestamp := 0 } }

namespace SuDaemon

variable (s : SuDaemon)

def hits (uid : Int) : Bool := s.cachedSuInfo.uid = uid && s.cachedSuInfo.access.isFresh s.now

def getSuInfo (uid : Int) : SuInfo :=
  if uid = aidRoot then .allow aidRoot s.now
  else if s.hits uid then s.cachedSuInfo
  else s.db.buildSuInfo uid s.now

def connectApp (answer : SuPolicy) (settings : RootSettings) : RootSettings :=
  if settings.policy = .query then { settings with policy := answer } else settings

def wait (after : Nat) : SuDaemon := { s with now := s.now + after }

def infoFor (r : Request) : SuInfo := (s.wait r.after).getSuInfo r.uid

def decides (r : Request) : SuPolicy := (connectApp r.answer (s.infoFor r).access.settings).policy

/-- The info of every uid but root is the cached one from then on, and its timestamp is refreshed. -/
def suDaemonHandler (r : Request) : SuDaemon :=
  let done := s.now + r.after + r.talk
  let info := s.infoFor r
  let access := { settings := connectApp r.answer info.access.settings, timestamp := done }
  { s with
    now := done
    cachedSuInfo := if r.uid = aidRoot then s.cachedSuInfo else { info with access } }

def step : Event → SuDaemon
  | .change after db => { s.wait after with db }
  | .request r => s.suDaemonHandler r

end SuDaemon

/-- The daemon together with the time at which the cached policy was read from the database; `none` if it
comes from elsewhere. -/
structure Traced where
  daemon : SuDaemon
  readAt : Option Nat := none

namespace Traced

variable (s : Traced)

def readFor (r : Request) : Option Nat :=
  let daemon := s.daemon.wait r.after
  if r.uid = aidRoot then none
  else if daemon.hits r.uid then s.readAt
  else some daemon.now

def step (e : Event) : Traced where
  daemon := s.daemon.step e
  readAt :=
    match e with
    | .change .. => s.readAt
    | .request r =>
        if r.uid = aidRoot then s.readAt
        else if (s.daemon.infoFor r).access.settings.policy = .query then none
        else s.readFor r

def ReadFresh (r : Request) : Prop :=
  ∃ t, s.readFor r = some t ∧ s.daemon.now + r.after - t < freshTime

def run (db : Database) (events : List Event) : Traced := events.foldl step { daemon := { db } }

end Traced

/-- The requests of one uid that follow each other within three seconds, as the times of the events tell:
when the chain has begun, when its last request was done, and what the database said at its beginning. -/
structure Chain where
  now : Nat := 0
  db : Database
  uid : Int := -1
  start : Nat := 0
  last : Nat := 0
  policy : SuPolicy := .query

namespace Chain

variable (c : Chain)

def extend (r : Request) : Chain :=
  let now := c.now + r.after
  if c.uid = r.uid ∧ now - c.last < freshTime then { c with now }
  else
    { c with
      now
      uid := r.uid
      start := now
      policy := (c.db.buildSuInfo r.uid now).access.settings.policy }

def step : Event → Chain
  | .change after db => { c with now := c.now + after, db }
  | .request r =>
      if r.uid = aidRoot then { c with now := c.now + r.after + r.talk }
      else
        let c := c.extend r
        { c with now := c.now + r.talk, last := c.now + r.talk }

def run (db : Database) (events : List Event) : Chain := events.foldl step { db }

variable {c} in
theorem now_extend (r : Request) : (c.extend r).now = c.now + r.after := by
  simp only [extend]
  split <;> rfl

variable {c} in
theorem db_extend (r : Request) : (c.extend r).db = c.db := by
  simp only [extend]
  split <;> rfl

structure Describes (c : Chain) (s : Traced) : Prop where
  now : s.daemon.now = c.now
  db : s.daemon.db = c.db
  uid : s.daemon.cachedSuInfo.uid = c.uid
  timestamp : s.daemon.cachedSuInfo.access.timestamp = c.last
  read : c.policy ≠ .query →
    s.readAt = some c.start ∧ s.daemon.cachedSuInfo.access.settings.policy = c.policy
  asked : c.policy = .query →
    s.readAt = none ∨ s.daemon.cachedSuInfo.access.settings.policy = .query

variable {c} {s : Traced} {r : Request}

theorem Describes.hits_iff (h : c.Describes s) :
    (s.daemon.wait r.after).hits r.uid = true ↔ c.uid = r.uid ∧ c.now + r.after - c.last < freshTime := by
  simp [SuDaemon.hits, SuDaemon.wait, AccessInfo.isFresh, h.now, h.uid, h.timestamp]

theorem Describes.extend (h : c.Describes s) (hroot : r.uid ≠ aidRoot) :
    (s.daemon.infoFor r).uid = (c.extend r).uid ∧
      ((c.extend r).policy ≠ .query → s.readFor r = some (c.extend r).start ∧
        (s.daemon.infoFor r).access.settings.policy = (c.extend r).policy) ∧
      ((c.extend r).policy = .query →
        s.readFor r = none ∨ (s.daemon.infoFor r).access.settings.policy = .query) := by
  simp only [Traced.readFor, SuDaemon.infoFor, SuDaemon.getSuInfo, if_neg hroot, Chain.extend]
  by_cases hhit : (s.daemon.wait r.after).hits r.uid = true
  · rw [if_pos (h.hits_iff.1 hhit), if_pos hhit, if_pos hhit]
    exact ⟨h.uid, h.read, h.asked⟩
  · rw [if_neg (mt h.hits_iff.2 hhit), if_neg hhit, if_neg hhit]
    simp only [SuDaemon.wait, h.now, h.db]
    exact ⟨Database.uid_buildSuInfo .., fun _ => ⟨trivial, trivial⟩, fun hquery => .inr hquery⟩

theorem Describes.step (h : c.Describes s) (e : Event) : (c.step e).Describes (s.step e) := by
  cases e with
  | change after db =>
      exact ⟨congrArg (· + after) h.now, rfl, h.uid, h.timestamp, h.read, h.asked⟩
  | request r =>
      by_cases hroot : r.uid = aidRoot
      · simp only [Chain.step, Traced.step, SuDaemon.step, SuDaemon.suDaemonHandler, if_pos hroot]
        exact ⟨by rw [h.now], h.db, h.uid, h.timestamp, h.read, h.asked⟩
      · obtain ⟨huid, hread, hasked⟩ := h.extend hroot
        simp only [Chain.step, Traced.step, SuDaemon.step, SuDaemon.suDaemonHandler, if_neg hroot]
        refine ⟨?_, ?_, huid, ?_, fun hpolicy => ?_, fun hpolicy => .inl ?_⟩
        · rw [h.now, now_extend]
        · rw [h.db, db_extend]
        · rw [h.now, now_extend]
        · obtain ⟨hreadFor, hsame⟩ := hread hpolicy
          rw [SuDaemon.connectApp, hsame, if_neg hpolicy, if_neg hpolicy]
          exact ⟨hreadFor, hsame⟩
        · split
          · rfl
          · rename_i hquery
            exact (hasked hpolicy).resolve_right hquery

theorem describes_run (db : Database) (events : List Event) :
    (run db events).Describes (Traced.run db events) := by
  have hstart : ({ db } : Chain).Describes { daemon := { db } } :=
    ⟨rfl, rfl, rfl, rfl, fun h => absurd rfl h, fun _ => .inl rfl⟩
  exact List.foldl_rel hstart fun e _ c s h => h.step e

end Chain

/-- **When a policy is fresh.** A request that is decided without the manager is decided with a policy read
less than three seconds before exactly if its chain of requests is younger than that and began with a
policy from the database. -/
theorem Traced.readFresh_iff (db : Database) (events : List Event) (r : Request)
    (hpolicy : ((run db events).daemon.infoFor r).access.settings.policy ≠ .query) :
    (run db events).ReadFresh r ↔ r.uid ≠ aidRoot ∧
      ((Chain.run db events).extend r).policy ≠ .query ∧
      ((Chain.run db events).extend r).now - ((Chain.run db events).extend r).start < freshTime := by
  have hchain := Chain.describes_run db events
  by_cases hroot : r.uid = aidRoot
  · simp [ReadFresh, readFor, hroot]
  · obtain ⟨-, hread, hasked⟩ := hchain.extend hroot
    rw [ReadFresh, hchain.now, Chain.now_extend]
    by_cases hquery : ((Chain.run db events).extend r).policy = .query
    · -- The manager has answered an earlier request of the chain.
      have hnone := (hasked hquery).resolve_right hpolicy
      simp [hnone, hquery]
    · simp [(hread hquery).1, hquery, hroot]

def sampleDb (policy : SuPolicy) : Database where
  settings := some {}
  policies uid := some (if uid = 10050 then some { policy, log := false, notify := false } else none)
  manager _ := (-1, "")

def sampleRequest (seconds : Nat) : Request :=
  { after := seconds * 10 ^ 9, uid := 10050, talk := 0, answer := .deny }

/-- The third request comes two seconds after the first, which has read the policy. -/
theorem Traced.readFresh_third :
    let s := run (sampleDb .allow) [.request (sampleRequest 0), .request (sampleRequest 1)]
    (s.daemon.infoFor (sampleRequest 1)).access.settings.policy ≠ .query ∧ s.ReadFresh (sampleRequest 1) ∧
      s.readFor (sampleRequest 1) = some 0 :=
  ⟨by decide, (readFresh_iff _ _ (sampleRequest 1) (by decide)).2 (by decide), by decide⟩

def revokedEvents : List Event :=
  [.request (sampleRequest 0), .change (10 ^ 9) (sampleDb .deny), .request (sampleRequest 1)]

/-- Three seconds after the change the app still gets root. -/
theorem Traced.not_readFresh_revoked :
    let s := run (sampleDb .allow) revokedEvents
    (s.daemon.infoFor (sampleRequest 2)).access.settings.policy ≠ .query ∧
      ¬ s.ReadFresh (sampleRequest 2) ∧ s.daemon.decides (sampleRequest 2) = .allow := by
  refine ⟨by decide, ?_, by decide⟩
  rintro ⟨t, ht, hfresh⟩
  have hread : (run (sampleDb .allow) revokedEvents).readFor (sampleRequest 2) = some 0 := by decide
  rw [hread] at ht
  cases ht
  exact absurd hfresh (by decide)

end MagiskNative.Daemon
