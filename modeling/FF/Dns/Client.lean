import FF.Crc
import FF.Dns.Response

/-!
# The DNS client

`ffdnscl_resolve` registers a user: it attaches it to the query for the name if there is one, or
makes a query object, puts it into the tree and sends it. A query leaves the tree in `query_fin`,
which calls its users: when the last response has come, or when it can't be sent anymore.

The tree is the list of its nodes, whose keys are the hash values of the names. A query that is
freed while it is in the tree stays in the list. The number of a registration, the ledger of the
calls to the users, and how often a result has been handed out and given back are not in the
program: they are what its behaviour is stated with.

## Main definitions

* `Client.resolve`, `Client.cancel`, `Client.ansProc`, `Client.onexpire`, `Client.unref`: what the
  client does.
* `Client.step`: the same for an `Event`.
-/

namespace FF

namespace Dns

/-! ### Queries on the wire -/

/-- `FFDNS_MAXMSG` -/
def FFDNS_MAXMSG : ℕ := 512

/-- `FFDNS_OPT` -/
def FFDNS_OPT : ℕ := 41

/-- `sizeof(ffdns_opt)` -/
def OPT_SIZE : ℕ := 10

/-- `ffint_hton16` -/
def be16 (n : ℕ) : List UInt8 := [UInt8.ofNat (n / 256), UInt8.ofNat n]

/-- `ffdns_initquery`, with the number of additional entries. -/
def ffdnsInitquery (txid arcount : ℕ) : List UInt8 :=
  be16 txid ++ [1, 0] ++ be16 1 ++ be16 0 ++ be16 0 ++ be16 arcount

/-- `ffdns_addquery`: the question; `none` where it returns 0. -/
def ffdnsAddquery (cap : ℕ) (name : List UInt8) (type : ℕ) : Option (List UInt8) :=
  match ffdnsEncodename cap name with
  | none => none
  | some out =>
    if out.length + QUES_SIZE + 1 > cap then none
    else
      let out := if name.getLast? ≠ some DOT then out ++ [0] else out
      some (out ++ be16 type ++ be16 FFDNS_IN)

/-- `ffdns_optinit` -/
def ffdnsOptinit (udpsize : ℕ) : List UInt8 := be16 FFDNS_OPT ++ be16 udpsize ++ [0, 0, 0, 0, 0, 0]

/-- `query_prep` -/
def queryPrep (edns : Bool) (bufSize txid : ℕ) (host : List UInt8) (type : ℕ) :
    Except MemStop (Option (List UInt8)) :=
  match ffdnsAddquery (FFDNS_MAXMSG - HDR_SIZE) host type with
  | none => .ok none
  | some ques =>
    if edns then
      if HDR_SIZE + ques.length + 1 + OPT_SIZE > FFDNS_MAXMSG then .error .overwrite
      else .ok (some (ffdnsInitquery txid 1 ++ ques ++ 0 :: ffdnsOptinit bufSize))
    else .ok (some (ffdnsInitquery txid 0 ++ ques))

/-! ### The state -/

/-- `dns_quser`, with the number of the registration. -/
structure Quser where
  ondone : ℕ
  udata : ℕ
  reg : ℕ
  deriving DecidableEq, Repr

/-- `dns_query`: `res` are the numbers of its results, `timer` tells whether the timer is armed,
`question4` and `question6` are the messages to be sent. -/
structure Query where
  key : UInt32
  triesLeft : ℕ
  name : List UInt8
  res : List ℕ
  status : ℤ
  users : List Quser
  txid4 : ℕ
  txid6 : ℕ
  need4 : Bool
  need6 : Bool
  question4 : List UInt8
  question6 : List UInt8
  timer : Bool
  freed : Bool
  deriving DecidableEq, Repr

/-- `ffdnscl_res`: `usage` is not set by `ans_proc_resp`. `handed` is the number of the users that
it has been handed to and `released` the number of those that have released it. -/
structure ResObj where
  usage : Option ℕ
  freed : Bool
  handed : ℕ
  released : ℕ
  deriving DecidableEq, Repr

/-- A call of `ondone`. -/
structure Call where
  reg : ℕ
  status : ℤ
  res : List ℕ
  deriving DecidableEq, Repr

/-- `ffdnsclient`, with the results that have been made, the calls of the users, the registrations
that have been cancelled and the number of all registrations. -/
structure Client where
  maxTries : ℕ
  bufSize : ℕ
  enableIpv6 : Bool
  edns : Bool
  debugLog : Bool
  queries : List Query
  results : List ResObj
  calls : List Call
  cancelled : List ℕ
  nreg : ℕ
  deriving DecidableEq, Repr

/-- Why the client can't go on: memory is accessed outside of an object, a query that has been
freed is used, or the reference count of a result is used that has not been set, or that is 0. -/
inductive ClientStop
  | mem (e : MemStop)
  | freed
  | unset
  | assert
  deriving DecidableEq, Repr

/-- A result as `ans_proc_resp` makes it. -/
def ResObj.new : ResObj := ⟨none, false, 0, 0⟩

namespace Client

/-- `ffdnscl_new` -/
def new (maxTries bufSize : ℕ) (enableIpv6 edns debugLog : Bool) : Client :=
  ⟨maxTries, bufSize, enableIpv6, edns, debugLog, [], [], [], [], 0⟩

/-- `ffrbt_find` in the tree of queries. -/
def find (c : Client) (key : UInt32) : Option Query := c.queries.find? fun q => q.key = key

/-- Change the query with the key `key`. -/
def modify (c : Client) (key : UInt32) (f : Query → Query) : Client :=
  { c with queries := c.queries.map fun q => if q.key = key then f q else q }

/-- Change the results with the numbers `rs`. -/
def modifyResults (c : Client) (rs : List ℕ) (f : ResObj → ResObj) : Client :=
  { c with results := c.results.mapIdx fun i o => if i ∈ rs then f o else o }

/-- Call one user. -/
def call (c : Client) (reg : ℕ) (status : ℤ) (res : List ℕ) : Client :=
  { c with calls := c.calls ++ [⟨reg, status, res⟩] }

/-! ### Queries -/

/-- `query_free` of a query in the tree. -/
def free (c : Client) (key : UInt32) : Client :=
  c.modify key fun q => { q with timer := false, users := [], freed := true }

/-- `query_fin`: the query is removed from the tree, its users are called and it is freed. -/
def fin (c : Client) (q : Query) (status : ℤ) : Client :=
  let c' := c.modifyResults q.res fun o => { o with handed := o.handed + q.users.length }
  { c' with
    queries := c.queries.filter fun q' => q'.key ≠ q.key
    calls := c.calls ++ q.users.map fun u => ⟨u.reg, status, q.res⟩ }

/-- The loop of `query_send`: the number of tries that are left when the query has been sent;
`none` where there are none left. `sends` tells for each try whether it succeeds. -/
def sendLoop : ℕ → List Bool → Option ℕ
  | 0, _ => none
  | n + 1, sends => if sends.headD false then some n else sendLoop n sends.tail

/-- `query_send` -/
def send (c : Client) (q : Query) (sends : List Bool) : Client :=
  match sendLoop q.triesLeft sends with
  | some n => c.modify q.key fun q => { q with triesLeft := n, timer := true }
  | none => c.fin q (-1)

/-- `query_onexpire` of the query with the key `key`; its timer has to be armed. -/
def onexpire (c : Client) (key : UInt32) (sends : List Bool) : Client :=
  match c.find key with
  | none => c
  | some q =>
    if !q.timer then c
    else if q.triesLeft = 0 then c.fin q (-1)
    else c.send q sends

/-! ### Users -/

/-- Which of the allocations of `ffdnscl_resolve` succeed. -/
structure Mem where
  query : Bool
  addusr : Bool
  name : Bool
  deriving DecidableEq, Repr

/-- `ffarr_rmswap` -/
def rmswap {α : Type*} (l : List α) (i : ℕ) : List α :=
  match l.getLast? with
  | none => l
  | some last => (l.set i last).dropLast

/-- The query for an IPv6 address, if the client asks for one. -/
def prep6 (c : Client) (host : List UInt8) (txid6 : ℕ) : Except ClientStop (Option (List UInt8)) :=
  if c.enableIpv6 then (queryPrep c.edns c.bufSize txid6 host FFDNS_AAAA).mapError .mem
  else .ok none

/-- The fields of a new query. -/
def newQuery (c : Client) (user : Quser) (host : List UInt8) (txid4 txid6 : ℕ)
    (buf4 buf6 : List UInt8) : Query where
  key := ffcrc32Iget host
  triesLeft := c.maxTries
  name := host
  res := []
  status := 0
  users := [user]
  txid4 := txid4
  txid6 := if c.enableIpv6 then txid6 else 0
  need4 := true
  need6 := c.enableIpv6
  question4 := buf4
  question6 := buf6
  timer := false
  freed := false

/-- The registration of a new query: the object is made, put into the tree and sent. Where there
is no memory, what has been made is freed again. -/
def resolveNew (c : Client) (user : Quser) (host : List UInt8) (mem : Mem) (txid4 txid6 : ℕ)
    (sends : List Bool) : Except ClientStop Client := do
  let buf4 ← (queryPrep c.edns c.bufSize txid4 host FFDNS_A).mapError .mem
  match buf4 with
  | none => return c.call user.reg (-1) []
  | some buf4 =>
    let buf6 ← c.prep6 host txid6
    if !(mem.query && mem.addusr && mem.name) then return c.call user.reg (-1) []
    let q := c.newQuery user host txid4 txid6 buf4 (buf6.getD [])
    return { c with queries := q :: c.queries }.send q sends

/-- `ffdnscl_resolve`; `rnd4` and `rnd6` are the random numbers. -/
def resolve (c : Client) (name : List UInt8) (ondone udata : ℕ) (mem : Mem) (rnd4 rnd6 : ℕ)
    (sends : List Bool) : Except ClientStop Client :=
  let user : Quser := ⟨ondone, udata, c.nreg⟩
  let c := { c with nreg := c.nreg + 1 }
  match c.find (ffcrc32Iget name) with
  | none => c.resolveNew user name mem (rnd4 % 65536) (rnd6 % 65536) sends
  | some q =>
    if q.freed then .error .freed
    else if q.name ≠ name ∨ !mem.addusr then .ok ((c.free q.key).call user.reg (-1) [])
    else .ok (c.modify q.key fun q => { q with users := q.users ++ [user] })

/-- `query_rmuser` -/
def cancel (c : Client) (host : List UInt8) (ondone udata : ℕ) : Except ClientStop Client :=
  match c.find (ffcrc32Iget host) with
  | none => .ok c
  | some q =>
    if q.freed then .error .freed
    else if q.name ≠ host then .ok c
    else
      match q.users.findIdx? fun u => u.udata = udata ∧ u.ondone = ondone with
      | none => .ok c
      | some i =>
        let c' := c.modify q.key (fun q => { q with users := rmswap q.users i })
        .ok { c' with cancelled := c.cancelled ++ (q.users[i]?.map Quser.reg).toList }

/-- `ffdnscl_unref` of the result with the number `r`, by a user that has not released it yet. -/
def unref (c : Client) (r : ℕ) : Except ClientStop Client :=
  match c.results[r]? with
  | none => .ok c
  | some o =>
    if o.handed ≤ o.released then .ok c
    else
      match o.usage with
      | none => .error .unset
      | some 0 => .error .assert
      | some (n + 1) =>
        let o' := { o with usage := some n, freed := decide (n = 0), released := o.released + 1 }
        .ok { c with results := c.results.set r o' }

/-! ### Responses -/

/-- `ans_find_query` -/
def ansFindQuery (c : Client) (resp : List UInt8) : Except ClientStop (Option (HdrHost × Query)) := do
  let r ← (ansQuestion resp).mapError .mem
  match r with
  | none => return none
  | some (h, name) =>
    match c.find (ffcrc32Get name) with
    | none => return none
    | some q =>
      if q.freed then .error .freed
      else if q.name ≠ name then return none
      else return some (h, q)

/-- `ans_proc` from the response code on: the status and the result of the response are stored
in the query. -/
def ansStatus (c : Client) (resp : List UInt8) (h : HdrHost) (q : Query) (is4 mem : Bool) :
    Except ClientStop (Client × Query) := do
  if h.rcode ≠ 0 then
    return (c, { q with status := if q.res = [] then (h.rcode : ℤ) else q.status })
  let res ← (ansProcResp resp h is4 c.debugLog mem).mapError .mem
  match res with
  | some _ =>
    return ({ c with results := c.results ++ [ResObj.new] },
      { q with res := q.res ++ [c.results.length], status := 0 })
  | none => return (c, { q with status := if q.res = [] then -1 else q.status })

/-- `ans_proc` behind the response: the query waits for the second one, or it is finished with
the reference counts of its results set to the number of its users. -/
def ansFin (c : Client) (q : Query) : Client :=
  if q.need4 || q.need6 then c.modify q.key fun _ => q
  else (c.modifyResults q.res fun o => { o with usage := some q.users.length }).fin q q.status

/-- `ans_proc` -/
def ansProc (c : Client) (resp : List UInt8) (mem : Bool) : Except ClientStop Client := do
  match ← c.ansFindQuery resp with
  | none => return c
  | some (h, q) =>
    if q.need4 ∧ h.id = q.txid4 then
      let (c, q) ← c.ansStatus resp h { q with need4 := false } true mem
      return c.ansFin q
    else if q.need6 ∧ h.id = q.txid6 then
      let (c, q) ← c.ansStatus resp h { q with need6 := false } false mem
      return c.ansFin q
    else return c

/-! ### Runs -/

/-- What happens to the client: calls of the user, packets, and timers. -/
inductive Event
  | resolve (name : List UInt8) (ondone udata : ℕ) (mem : Mem) (rnd4 rnd6 : ℕ) (sends : List Bool)
  | cancel (name : List UInt8) (ondone udata : ℕ)
  | response (resp : List UInt8) (mem : Bool)
  | expire (key : UInt32) (sends : List Bool)
  | unref (r : ℕ)
  deriving DecidableEq, Repr

/-- An event. -/
def step (c : Client) : Event → Except ClientStop Client
  | .resolve name ondone udata mem rnd4 rnd6 sends => c.resolve name ondone udata mem rnd4 rnd6 sends
  | .cancel name ondone udata => c.cancel name ondone udata
  | .response resp mem => c.ansProc resp mem
  | .expire key sends => .ok (c.onexpire key sends)
  | .unref r => c.unref r

/-- An event that the client survives. -/
def next (c : Client) (e : Event) : Option Client := (c.step e).toOption

end Client

end Dns

end FF
