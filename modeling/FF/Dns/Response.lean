import FF.Dns.Name

/-!
# Responses of a DNS server

`ans_find_query` checks a response before it looks for the query, `ans_nrecs` counts the useful
records of the response and `ans_proc_resp` allocates memory for this number of addresses and
stores the addresses in a second loop over the records.

The first loop decodes the owner name of a record and stops where this fails; the second one skips
the name.
-/

namespace FF

namespace Dns

open List

/-- `FFDNS_A` -/
def FFDNS_A : ℕ := 1

/-- `FFDNS_AAAA` -/
def FFDNS_AAAA : ℕ := 28

/-- `FFDNS_CNAME` -/
def FFDNS_CNAME : ℕ := 5

/-- `FFDNS_IN` -/
def FFDNS_IN : ℕ := 1

/-- `NI_MAXHOST` -/
def NI_MAXHOST : ℕ := 1025

/-- `sizeof(ffdns_hdr)` -/
def HDR_SIZE : ℕ := 12

/-- `sizeof(ffdns_ques)` -/
def QUES_SIZE : ℕ := 4

/-- `sizeof(ffdns_ans)` -/
def ANS_SIZE : ℕ := 10

/-! ### The fields of a packet -/

/-- `ffdns_hdr_host`, with the flag `qr` of the header. -/
structure HdrHost where
  id : ℕ
  qr : ℕ
  rcode : ℕ
  qdcount : ℕ
  ancount : ℕ
  nscount : ℕ
  arcount : ℕ
  deriving DecidableEq, Repr

/-- `ffdns_hdrtohost` -/
def ffdnsHdrtohost (resp : List UInt8) : Except MemStop HdrHost := do
  let id ← readBytes resp 0 2
  let b2 ← readAt resp 2
  let b3 ← readAt resp 3
  let qd ← readBytes resp 4 2
  let an ← readBytes resp 6 2
  let ns ← readBytes resp 8 2
  let ar ← readBytes resp 10 2
  return ⟨beNat id, (b2 >>> 7).toNat, (b3 &&& 0xf).toNat, beNat qd, beNat an, beNat ns, beNat ar⟩

/-- `ffdns_ques_host` -/
structure QuesHost where
  type : ℕ
  clas : ℕ
  deriving DecidableEq, Repr

/-- `ffdns_questohost` -/
def ffdnsQuestohost (resp : List UInt8) (p : ℕ) : Except MemStop QuesHost := do
  let type ← readBytes resp p 2
  let clas ← readBytes resp (p + 2) 2
  return ⟨beNat type, beNat clas⟩

/-- `ffdns_ans_host` -/
structure AnsHost where
  data : ℕ
  type : ℕ
  clas : ℕ
  ttl : ℕ
  len : ℕ
  deriving DecidableEq, Repr

/-- `ffdns_anstohost` -/
def ffdnsAnstohost (resp : List UInt8) (p : ℕ) : Except MemStop AnsHost := do
  let ans ← readBytes resp p ANS_SIZE
  let ttl := beNat ((ans.drop 4).take 4)
  return {
    data := p + ANS_SIZE
    type := beNat (ans.take 2)
    clas := beNat ((ans.drop 2).take 2)
    ttl := if ttl ≥ 0x80000000 then 0 else ttl
    len := beNat (ans.drop 8) }

/-! ### The checks of a response -/

/-- The part of `ans_find_query` before the search: the header, and the name in the question
without the last dot; `none` where the response is refused. -/
def ansQuestion (resp : List UInt8) : Except MemStop (Option (HdrHost × List UInt8)) := do
  if resp.length < HDR_SIZE then return none
  let h ← ffdnsHdrtohost resp
  if h.qr ≠ 1 then return none
  if h.qdcount ≠ 1 then return none
  let (name, p) ← ffdnsName FFDNS_MAXNAME resp HDR_SIZE
  if name = [] then return none
  if p + QUES_SIZE > resp.length then return none
  let q ← ffdnsQuestohost resp p
  if q.clas ≠ FFDNS_IN then return none
  return some (h, name.dropLast)

/-! ### The number of records -/

/-- The type of the records that answer the question. -/
def addrType (is4 : Bool) : ℕ := if is4 then FFDNS_A else FFDNS_AAAA

/-- The size of an address. -/
def addrSize (is4 : Bool) : ℕ := if is4 then 4 else 16

/-- The cases `FFDNS_A` and `FFDNS_AAAA` of `ans_nrecs`: whether the record is counted. The debug
log shows the address. -/
def addrRecord (resp : List UInt8) (debug : Bool) (size : ℕ) (wanted : Bool) (ans : AnsHost) :
    Except MemStop Bool :=
  if ans.clas ≠ FFDNS_IN then .ok false
  else if ans.len ≠ size then .ok false
  else do
    let _ ← if debug then readBytes resp ans.data size else .ok []
    .ok wanted

/-- The `switch` of `ans_nrecs`; `p` is the position behind the record. -/
def ansRecord (resp : List UInt8) (is4 debug : Bool) (p : ℕ) (ans : AnsHost) :
    Except MemStop Bool :=
  if ans.type = FFDNS_A then addrRecord resp debug (addrSize true) is4 ans
  else if ans.type = FFDNS_AAAA then addrRecord resp debug (addrSize false) (!is4) ans
  else if ans.type = FFDNS_CNAME then do
    let _ ← if debug then ffdnsName NI_MAXHOST resp p else .ok ([], p)
    .ok false
  else .ok false

/-- The loop of `ans_nrecs` -/
def nrecsLoop (resp : List UInt8) (is4 debug : Bool) : ℕ → ℕ → ℕ → Except MemStop ℕ
  | 0, _, nrecs => .ok nrecs
  | n + 1, p, nrecs => do
      let (name, p) ← ffdnsName FFDNS_MAXNAME resp p
      if name = [] then .ok nrecs
      else if p + ANS_SIZE > resp.length then .ok nrecs
      else
        let ans ← ffdnsAnstohost resp p
        let p := p + ANS_SIZE + ans.len
        if p > resp.length then .ok nrecs
        else
          let useful ← ansRecord resp is4 debug p ans
          nrecsLoop resp is4 debug n p (if useful then nrecs + 1 else nrecs)

/-! ### The addresses -/

/-- `ffdnscl_res`: the number of addresses there is memory for, the addresses, and the lowest
TTL. -/
structure Res where
  naddrs : ℕ
  addrs : List (List UInt8)
  ttl : ℕ
  deriving DecidableEq, Repr

/-- The second loop of `ans_proc_resp`, with memory for `nrecs` addresses. -/
def procLoop (resp : List UInt8) (is4 : Bool) (nrecs : ℕ) :
    ℕ → ℕ → List (List UInt8) → ℕ → Except MemStop (List (List UInt8) × ℕ)
  | 0, _, addrs, ttl => .ok (addrs, ttl)
  | n + 1, p, addrs, ttl => do
      let p ← ffdnsSkipname resp p
      if p + ANS_SIZE > resp.length then .ok (addrs, ttl)
      else
        let ans ← ffdnsAnstohost resp p
        let p := p + ANS_SIZE + ans.len
        if p > resp.length then .ok (addrs, ttl)
        else if ans.type = addrType is4 then
          if ans.clas ≠ FFDNS_IN ∨ ans.len ≠ addrSize is4 then procLoop resp is4 nrecs n p addrs ttl
          else if addrs.length ≥ nrecs then .error .overwrite
          else
            let a ← readBytes resp ans.data (addrSize is4)
            procLoop resp is4 nrecs n p (addrs ++ [a]) (min ttl ans.ttl)
        else procLoop resp is4 nrecs n p addrs ttl

/-- `ans_proc_resp`; `mem` tells whether there is memory for the result. The addresses are linked
in a list at the end, which needs one address at least. -/
def ansProcResp (resp : List UInt8) (h : HdrHost) (is4 debug mem : Bool) :
    Except MemStop (Option Res) := do
  let p ← ffdnsSkipname resp HDR_SIZE
  let p := p + QUES_SIZE
  let nrecs ← nrecsLoop resp is4 debug h.ancount p 0
  if nrecs = 0 then return none
  if !mem then return none
  let (addrs, ttl) ← procLoop resp is4 nrecs h.ancount p [] 0xffffffff
  if addrs = [] then .error .endless
  else .ok (some ⟨nrecs, addrs, ttl⟩)

/-! ### The records of a packet -/

/-- The record whose owner name begins at `p`, and the position behind it. -/
def nextAns (resp : List UInt8) (p : ℕ) : Option (AnsHost × ℕ) :=
  match ffdnsSkipname resp p with
  | .error _ => none
  | .ok q =>
    match ffdnsAnstohost resp q with
    | .error _ => none
    | .ok ans =>
      if q + ANS_SIZE + ans.len > resp.length then none
      else some (ans, q + ANS_SIZE + ans.len)

/-- **The answer records**, each with the position of its owner name: `n` records at most from the
position `p` on. -/
def answers (resp : List UInt8) : ℕ → ℕ → List (ℕ × AnsHost)
  | 0, _ => []
  | n + 1, p =>
    match nextAns resp p with
    | none => []
    | some (ans, q) => (p, ans) :: answers resp n q

/-- A record of the queried type in the class of the question, with the right length. -/
def isUseful (is4 : Bool) (r : ℕ × AnsHost) : Bool :=
  r.2.type = addrType is4 ∧ r.2.clas = FFDNS_IN ∧ r.2.len = addrSize is4

/-- `ffdns_name` decodes the name at `p`. -/
def isNamed (resp : List UInt8) (p : ℕ) : Bool :=
  match ffdnsName FFDNS_MAXNAME resp p with
  | .ok (name, _) => name ≠ []
  | .error _ => false

section Records

variable {resp : List UInt8}

theorem ffdnsAnstohost_of_le {p : ℕ} (h : p + ANS_SIZE ≤ resp.length) :
    ∃ ans, ffdnsAnstohost resp p = .ok ans ∧ ans.data = p + ANS_SIZE := by
  unfold ffdnsAnstohost
  rw [readBytes_eq h]
  exact ⟨_, rfl, rfl⟩

theorem ffdnsAnstohost_of_gt {p : ℕ} (h : resp.length < p + ANS_SIZE) :
    ffdnsAnstohost resp p = .error .overread := by
  rw [ffdnsAnstohost, readBytes, if_neg (by omega)]
  rfl

/-- There is a record at `p`, or none: what both of the loops see behind the owner name. -/
theorem nextAns_cases (p : ℕ) :
    ∃ q, ffdnsSkipname resp p = .ok q ∧
      ((resp.length < q + ANS_SIZE ∧ nextAns resp p = none) ∨
        (q + ANS_SIZE ≤ resp.length ∧ ∃ ans, ffdnsAnstohost resp q = .ok ans ∧
          ans.data = q + ANS_SIZE ∧
          ((resp.length < q + ANS_SIZE + ans.len ∧ nextAns resp p = none) ∨
            (q + ANS_SIZE + ans.len ≤ resp.length ∧
              nextAns resp p = some (ans, q + ANS_SIZE + ans.len))))) := by
  obtain ⟨q, hq, -, -⟩ := ffdnsSkipname_spec resp p
  refine ⟨q, hq, ?_⟩
  unfold nextAns
  simp only [hq]
  rcases Nat.lt_or_ge resp.length (q + ANS_SIZE) with h | h
  · refine .inl ⟨h, ?_⟩
    rw [ffdnsAnstohost_of_gt h]
  obtain ⟨ans, hans, hdata⟩ := ffdnsAnstohost_of_le h
  refine .inr ⟨h, ans, hans, hdata, ?_⟩
  simp only [hans]
  rcases Nat.lt_or_ge resp.length (q + ANS_SIZE + ans.len) with hl | hl
  · exact .inl ⟨hl, if_pos hl⟩
  · exact .inr ⟨hl, if_neg (by omega)⟩

theorem nextAns_le {p q : ℕ} {ans : AnsHost} (h : nextAns resp p = some (ans, q)) :
    q ≤ resp.length := by
  obtain ⟨q', -, ⟨-, hn⟩ | ⟨-, ans', -, -, ⟨-, hn⟩ | ⟨hle, hn⟩⟩⟩ := @nextAns_cases resp p
  · rw [hn] at h
    cases h
  · rw [hn] at h
    cases h
  · rw [hn] at h
    cases h
    exact hle

end Records

/-! ### The first loop -/

section Count

variable {resp : List UInt8} {is4 debug : Bool}

theorem addrRecord_eq {size : ℕ} {wanted : Bool} {ans : AnsHost}
    (h : ans.data + ans.len ≤ resp.length) :
    addrRecord resp debug size wanted ans =
      .ok (wanted && decide (ans.clas = FFDNS_IN ∧ ans.len = size)) := by
  unfold addrRecord
  by_cases hc : ans.clas = FFDNS_IN
  · by_cases hl : ans.len = size
    · rw [if_neg (by simpa using hc), if_neg (by simpa using hl)]
      cases debug with
      | false => simp [bind, Except.bind, hc, hl]
      | true => simp [bind, Except.bind, readBytes_eq (hl ▸ h), hc, hl]
    · rw [if_neg (by simpa using hc), if_pos hl]
      simp [hl]
  · rw [if_pos hc]
    simp [hc]

/-- **A record is counted** exactly when it is useful. -/
theorem ansRecord_eq {p : ℕ} {ans : AnsHost} (hp : p ≤ resp.length)
    (h : ans.data + ans.len ≤ resp.length) (i : ℕ) :
    ansRecord resp is4 debug p ans = .ok (isUseful is4 (i, ans)) := by
  unfold ansRecord
  by_cases h4 : ans.type = FFDNS_A
  · rw [if_pos h4, addrRecord_eq h]
    cases is4 <;> simp [isUseful, addrType, h4, FFDNS_A, FFDNS_AAAA]
  rw [if_neg h4]
  by_cases h6 : ans.type = FFDNS_AAAA
  · rw [if_pos h6, addrRecord_eq h]
    cases is4 <;> simp [isUseful, addrType, h6, FFDNS_A, FFDNS_AAAA]
  rw [if_neg h6]
  have hno : isUseful is4 (i, ans) = false := by
    cases is4 <;> simp [isUseful, addrType, h4, h6]
  rw [hno]
  by_cases hc : ans.type = FFDNS_CNAME
  · obtain ⟨name, pos, hname, -⟩ := ffdnsName_spec (show 0 < NI_MAXHOST by decide) hp
    rw [if_pos hc]
    cases debug with
    | false => rfl
    | true => simp [hname, bind, Except.bind]
  · rw [if_neg hc]

/-- An iteration of `ans_nrecs` -/
theorem nrecsLoop_succ {p : ℕ} (hp : p ≤ resp.length) (n nrecs : ℕ) :
    nrecsLoop resp is4 debug (n + 1) p nrecs =
      if isNamed resp p then
        match nextAns resp p with
        | none => .ok nrecs
        | some (ans, q) =>
          nrecsLoop resp is4 debug n q (if isUseful is4 (p, ans) then nrecs + 1 else nrecs)
      else .ok nrecs := by
  obtain ⟨name, pos, hname, -, -, hskip⟩ := ffdnsName_spec (show 0 < FFDNS_MAXNAME by decide) hp
  simp only [nrecsLoop, isNamed, hname, bind, Except.bind]
  by_cases hne : name = []
  · simp [hne]
  have hnm : decide (name ≠ []) = true := by simpa using hne
  simp only [if_neg hne, hnm, if_true]
  obtain ⟨q, hq, h⟩ := @nextAns_cases resp p
  obtain rfl : pos = q := by simpa [hskip hne] using hq
  obtain ⟨hlt, hn⟩ | ⟨hge, ans, hans, hdata, ⟨hlt, hn⟩ | ⟨hle, hn⟩⟩ := h
  · simp only [hn, if_pos hlt]
  · have hin : ¬ pos + ANS_SIZE > resp.length := by omega
    simp only [if_neg hin, hans, hn, if_pos hlt]
  · have hin : ¬ pos + ANS_SIZE > resp.length := by omega
    have hin' : ¬ pos + ANS_SIZE + ans.len > resp.length := by omega
    simp only [if_neg hin, if_neg hin', hans, hn]
    rw [ansRecord_eq hle (by omega) p]

/-- **The first loop** counts the useful records in front of the first name that is refused. -/
theorem nrecsLoop_spec {p : ℕ} (hp : p ≤ resp.length) (n nrecs : ℕ) :
    nrecsLoop resp is4 debug n p nrecs =
      .ok (nrecs + (((answers resp n p).takeWhile (fun r => isNamed resp r.1)).countP
        (isUseful is4))) := by
  induction n generalizing p nrecs with
  | zero => rfl
  | succ n ih =>
    rw [nrecsLoop_succ hp, answers]
    cases hnext : nextAns resp p with
    | none => simp
    | some r =>
      by_cases hnm : isNamed resp p
      · simp only [hnm, if_true, takeWhile_cons]
        rw [ih (nextAns_le hnext), countP_cons]
        congr 1
        split
        · omega
        · rfl
      · simp [hnm]

end Count

/-! ### The second loop -/

section Store

variable {resp : List UInt8} {is4 : Bool} {nrecs : ℕ}

/-- An iteration of `ans_proc_resp` -/
theorem procLoop_succ (n p : ℕ) (addrs : List (List UInt8)) (ttl : ℕ) :
    procLoop resp is4 nrecs (n + 1) p addrs ttl =
      match nextAns resp p with
      | none => .ok (addrs, ttl)
      | some (ans, q) =>
        if isUseful is4 (p, ans) then
          if addrs.length ≥ nrecs then .error .overwrite
          else procLoop resp is4 nrecs n q
            (addrs ++ [(resp.drop ans.data).take (addrSize is4)]) (min ttl ans.ttl)
        else procLoop resp is4 nrecs n q addrs ttl := by
  obtain ⟨q, hq, h⟩ := @nextAns_cases resp p
  simp only [procLoop, hq, bind, Except.bind]
  obtain ⟨hlt, hn⟩ | ⟨hge, ans, hans, hdata, ⟨hlt, hn⟩ | ⟨hle, hn⟩⟩ := h
  · simp only [hn, if_pos hlt]
  · rw [if_neg (by omega)]
    simp only [hans, hn, if_pos hlt]
  rw [if_neg (by omega)]
  simp only [hans, hn]
  rw [if_neg (by omega)]
  by_cases ht : ans.type = addrType is4
  · rw [if_pos ht]
    by_cases hu : ans.clas = FFDNS_IN ∧ ans.len = addrSize is4
    · have hread : ans.data + addrSize is4 ≤ resp.length := by omega
      have huse : isUseful is4 (p, ans) = true := by simp [isUseful, ht, hu]
      have hno : ¬(ans.clas ≠ FFDNS_IN ∨ ans.len ≠ addrSize is4) := by simpa using hu
      simp only [if_neg hno, huse, if_true, readBytes_eq hread]
    · have huse : ¬isUseful is4 (p, ans) = true := by simpa [isUseful, ht] using hu
      rw [if_pos (not_and_or.mp hu), if_neg huse]
  · rw [if_neg ht, if_neg (by simp [isUseful, ht])]

/-- The addresses of the useful records. -/
def addresses (resp : List UInt8) (is4 : Bool) (rs : List (ℕ × AnsHost)) : List (List UInt8) :=
  (rs.filter (isUseful is4)).map fun r => (resp.drop r.2.data).take (addrSize is4)

theorem length_addresses (rs : List (ℕ × AnsHost)) :
    (addresses resp is4 rs).length = rs.countP (isUseful is4) := by
  rw [addresses, length_map, countP_eq_length_filter]

/-- **The second loop** stores the addresses of all the useful records, or writes behind the
memory where there are more of them. -/
theorem procLoop_spec (n p : ℕ) (addrs : List (List UInt8)) (ttl : ℕ)
    (hlen : addrs.length ≤ nrecs) :
    if addrs.length + (answers resp n p).countP (isUseful is4) ≤ nrecs then
      ∃ ttl', procLoop resp is4 nrecs n p addrs ttl =
        .ok (addrs ++ addresses resp is4 (answers resp n p), ttl')
    else procLoop resp is4 nrecs n p addrs ttl = .error .overwrite := by
  induction n generalizing p addrs ttl with
  | zero => simp [answers, addresses, procLoop, hlen]
  | succ n ih =>
    rw [procLoop_succ, answers]
    cases hnext : nextAns resp p with
    | none => simp [addresses, hlen]
    | some r =>
      obtain ⟨ans, q⟩ := r
      by_cases hu : isUseful is4 (p, ans)
      · simp only [hu, if_true, countP_cons]
        by_cases hfull : addrs.length ≥ nrecs
        · rw [if_neg (by omega), if_pos hfull]
        have h := ih q (addrs ++ [(resp.drop ans.data).take (addrSize is4)])
          (min ttl ans.ttl) (by simp only [length_append, length_singleton]; omega)
        rw [if_neg hfull]
        simp only [length_append, length_singleton, append_assoc, singleton_append] at h
        have hsum : addrs.length + 1 + (answers resp n q).countP (isUseful is4) =
          addrs.length + ((answers resp n q).countP (isUseful is4) + 1) := by omega
        rw [hsum] at h
        simpa [addresses, hu] using h
      · have h := ih q addrs ttl hlen
        simpa [addresses, hu, countP_cons] using h

end Store

/-! ### Both loops together -/

/-- The position of the first answer record. -/
def firstAns (resp : List UInt8) : ℕ :=
  match ffdnsSkipname resp HDR_SIZE with
  | .ok p => p + QUES_SIZE
  | .error _ => 0

/-- The answer records of a packet with the header `h`. -/
def answerRecs (resp : List UInt8) (h : HdrHost) : List (ℕ × AnsHost) :=
  answers resp h.ancount (firstAns resp)

/-- The number of the addresses that have been stored. -/
def storedCount (res : Option Res) : ℕ := (res.elim [] Res.addrs).length

/-- The number of the records that `ans_nrecs` has counted. -/
def countedCount (res : Option Res) : ℕ := res.elim 0 Res.naddrs

/-- **What is expected of `ans_proc_resp`**: there is a result, the addresses fit into the memory,
and there are as many of them as useful records in the packet. -/
def StoresAll (resp : List UInt8) (h : HdrHost) (is4 debug : Bool) : Prop :=
  ∃ res, ansProcResp resp h is4 debug true = .ok res ∧ storedCount res ≤ countedCount res ∧
    storedCount res = (answerRecs resp h).countP (isUseful is4)

section Proc

variable {resp name : List UInt8} {h : HdrHost}

theorem ffdnsHdrtohost_of_le (hlen : HDR_SIZE ≤ resp.length) :
    ∃ h, ffdnsHdrtohost resp = .ok h := by
  have hsz : 12 ≤ resp.length := hlen
  unfold ffdnsHdrtohost
  rw [readBytes_eq (show 0 + 2 ≤ resp.length by omega), readAt_eq (show 2 < resp.length by omega),
    readAt_eq (show 3 < resp.length by omega), readBytes_eq (show 4 + 2 ≤ resp.length by omega),
    readBytes_eq (show 6 + 2 ≤ resp.length by omega),
    readBytes_eq (show 8 + 2 ≤ resp.length by omega),
    readBytes_eq (show 10 + 2 ≤ resp.length by omega)]
  exact ⟨_, rfl⟩

theorem ffdnsQuestohost_of_le {p : ℕ} (hp : p + QUES_SIZE ≤ resp.length) :
    ∃ q, ffdnsQuestohost resp p = .ok q := by
  have hsz : p + 4 ≤ resp.length := hp
  unfold ffdnsQuestohost
  rw [readBytes_eq (show p + 2 ≤ resp.length by omega),
    readBytes_eq (show p + 2 + 2 ≤ resp.length by omega)]
  exact ⟨_, rfl⟩

/-- **The checks of a response** read inside of the packet and end; behind them the question lies
in the packet. -/
theorem ansQuestion_spec (resp : List UInt8) :
    ∃ r, ansQuestion resp = .ok r ∧ (r ≠ none → firstAns resp ≤ resp.length) := by
  unfold ansQuestion
  split
  · exact ⟨none, rfl, fun h => absurd rfl h⟩
  rename_i hlen
  obtain ⟨h, hh⟩ := ffdnsHdrtohost_of_le (Nat.le_of_not_lt hlen)
  obtain ⟨name, pos, hname, -, -, hskip⟩ :=
    ffdnsName_spec (show 0 < FFDNS_MAXNAME by decide) (Nat.le_of_not_lt hlen)
  simp only [hh, hname, bind, Except.bind]
  split
  · exact ⟨none, rfl, fun h => absurd rfl h⟩
  split
  · exact ⟨none, rfl, fun h => absurd rfl h⟩
  split
  · exact ⟨none, rfl, fun h => absurd rfl h⟩
  split
  · exact ⟨none, rfl, fun h => absurd rfl h⟩
  rename_i hne hpos
  obtain ⟨q, hq⟩ := ffdnsQuestohost_of_le (Nat.le_of_not_lt hpos)
  simp only [hq]
  split
  · exact ⟨none, rfl, fun h => absurd rfl h⟩
  · refine ⟨some (h, name.dropLast), rfl, fun _ => ?_⟩
    rw [firstAns, hskip hne]
    exact Nat.le_of_not_lt hpos

theorem firstAns_le (hq : ansQuestion resp = .ok (some (h, name))) :
    firstAns resp ≤ resp.length := by
  obtain ⟨r, hr, hle⟩ := ansQuestion_spec resp
  obtain rfl : r = some (h, name) := by simpa [hr] using hq
  exact hle (by simp)

/-- The number of the records that `ans_nrecs` counts. -/
def countedRecs (resp : List UInt8) (h : HdrHost) (is4 : Bool) : ℕ :=
  ((answerRecs resp h).takeWhile fun r => isNamed resp r.1).countP (isUseful is4)

/-- `ans_proc_resp` from its two loops, where there is something to store and memory for it. -/
theorem ansProcResp_some (hp : firstAns resp ≤ resp.length) (is4 debug : Bool)
    (hc : countedRecs resp h is4 ≠ 0) :
    if (answerRecs resp h).countP (isUseful is4) ≤ countedRecs resp h is4 then
      ∃ ttl, ansProcResp resp h is4 debug true =
        .ok (some ⟨countedRecs resp h is4, addresses resp is4 (answerRecs resp h), ttl⟩)
    else ansProcResp resp h is4 debug true = .error .overwrite := by
  have hle : countedRecs resp h is4 ≤ (answerRecs resp h).countP (isUseful is4) :=
    (takeWhile_sublist _).countP_le
  obtain ⟨q, hq, -, -⟩ := ffdnsSkipname_spec resp HDR_SIZE
  have hfirst : firstAns resp = q + QUES_SIZE := by rw [firstAns, hq]
  have hloop := @procLoop_spec resp is4 (countedRecs resp h is4) h.ancount (firstAns resp) []
    0xffffffff (Nat.zero_le _)
  have hcount := @nrecsLoop_spec resp is4 debug (firstAns resp) hp h.ancount 0
  rw [Nat.zero_add] at hcount
  change nrecsLoop resp is4 debug h.ancount (firstAns resp) 0 =
    .ok (countedRecs resp h is4) at hcount
  rw [length_nil, Nat.zero_add, nil_append] at hloop
  unfold ansProcResp
  rw [hq]
  simp only [← hfirst, bind, Except.bind, hcount, if_neg hc, Bool.not_true]
  by_cases hall : (answerRecs resp h).countP (isUseful is4) ≤ countedRecs resp h is4
  · obtain ⟨ttl, hrun⟩ := (if_pos hall).mp hloop
    have hne : addresses resp is4 (answerRecs resp h) ≠ [] := by
      intro hnil
      have hlen := @length_addresses resp is4 (answerRecs resp h)
      rw [hnil, length_nil] at hlen
      omega
    rw [if_pos hall]
    refine ⟨ttl, ?_⟩
    simp only [hrun, Bool.false_eq_true, if_false]
    exact if_neg hne
  · have hrun := (if_neg hall).mp hloop
    rw [if_neg hall]
    simp only [hrun, Bool.false_eq_true, if_false]

/-- `ans_proc_resp` where nothing is counted, or without memory. -/
theorem ansProcResp_none (hp : firstAns resp ≤ resp.length) (is4 debug mem : Bool)
    (hc : countedRecs resp h is4 = 0 ∨ mem = false) :
    ansProcResp resp h is4 debug mem = .ok none := by
  obtain ⟨q, hq, -, -⟩ := ffdnsSkipname_spec resp HDR_SIZE
  have hfirst : firstAns resp = q + QUES_SIZE := by rw [firstAns, hq]
  have hcount := @nrecsLoop_spec resp is4 debug (firstAns resp) hp h.ancount 0
  rw [Nat.zero_add] at hcount
  unfold ansProcResp
  rw [hq]
  simp only [← hfirst, bind, Except.bind, hcount]
  split
  · rfl
  · rename_i hne
    rw [hc.resolve_left hne]
    rfl

/-- All the useful records are counted exactly where none of them is at or behind the first name
that is refused. -/
theorem countedRecs_eq_iff (is4 : Bool) :
    (answerRecs resp h).countP (isUseful is4) ≤ countedRecs resp h is4 ↔
      ∀ r ∈ (answerRecs resp h).dropWhile (fun r => isNamed resp r.1), isUseful is4 r = false := by
  have hsplit := congrArg (List.countP (isUseful is4))
    (takeWhile_append_dropWhile (p := fun r => isNamed resp r.1) (l := answerRecs resp h))
  rw [countP_append] at hsplit
  have hzero : ∀ rs : List (ℕ × AnsHost),
      rs.countP (isUseful is4) = 0 ↔ ∀ r ∈ rs, isUseful is4 r = false := by
    intro rs
    simp [countP_eq_zero]
  rw [← hzero, countedRecs, ← hsplit]
  omega

/-- **The addresses of a response.** Every access of `ans_proc_resp` but the stores is inside of
the packet and both loops end. There are as many addresses as useful records, and memory for them,
exactly where no useful record is at or behind the first owner name that `ffdns_name` refuses. -/
theorem ansProcResp_stores (hq : ansQuestion resp = .ok (some (h, name))) (is4 debug : Bool) :
    (∀ mem e, ansProcResp resp h is4 debug mem = .error e → e = .overwrite) ∧
      (StoresAll resp h is4 debug ↔
        ∀ r ∈ (answerRecs resp h).dropWhile (fun r => isNamed resp r.1),
          isUseful is4 r = false) := by
  have hp := firstAns_le hq
  rw [← countedRecs_eq_iff]
  by_cases hc : countedRecs resp h is4 = 0
  · have hnone := fun mem => ansProcResp_none hp is4 debug mem (.inl hc)
    refine ⟨fun mem e he => ?_, ⟨?_, fun hall => ?_⟩⟩
    · rw [hnone mem] at he
      cases he
    · rintro ⟨res, hres, -, hcount⟩
      rw [hnone true] at hres
      cases hres
      rw [← hcount]
      exact Nat.zero_le _
    · refine ⟨none, hnone true, Nat.le_refl 0, ?_⟩
      change 0 = _
      omega
  have hsome := ansProcResp_some hp is4 debug hc
  by_cases hall : (answerRecs resp h).countP (isUseful is4) ≤ countedRecs resp h is4
  · obtain ⟨ttl, hrun⟩ := (if_pos hall).mp hsome
    refine ⟨fun mem e he => ?_, fun _ => hall, fun _ => ⟨_, hrun, ?_, ?_⟩⟩
    · cases mem with
      | true =>
        rw [hrun] at he
        cases he
      | false =>
        rw [ansProcResp_none hp is4 debug false (.inr rfl)] at he
        cases he
    · rw [storedCount, countedCount, Option.elim, Option.elim, length_addresses]
      exact hall
    · rw [storedCount, Option.elim, length_addresses]
  have hrun := (if_neg hall).mp hsome
  refine ⟨fun mem e he => ?_, ?_, fun h => absurd h hall⟩
  · cases mem with
    | true =>
      rw [hrun] at he
      cases he
      rfl
    | false =>
      rw [ansProcResp_none hp is4 debug false (.inr rfl)] at he
      cases he
  · rintro ⟨res, hres, -⟩
    rw [hrun] at hres
    cases hres

/-- A response with the question for `a` and two records with IPv4 addresses; `x` is the low byte
of the pointer in the owner name of the second one. -/
def twoRecords (x : UInt8) : List UInt8 :=
  [0, 7, 0x80, 0, 0, 1, 0, 2, 0, 0, 0, 0] ++ [1, 0x61, 0, 0, 1, 0, 1] ++
    [0xc0, 12, 0, 1, 0, 1, 0, 0, 0, 60, 0, 4, 10, 0, 0, 1] ++
    [0xc0, x, 0, 1, 0, 1, 0, 0, 0, 60, 0, 4, 10, 0, 0, 2]

/-- Both of the addresses are stored where both of the names point to the question. -/
theorem ansProcResp_stores_two : StoresAll (twoRecords 12) ⟨7, 1, 0, 1, 2, 0, 0⟩ true false :=
  ((ansProcResp_stores (show ansQuestion (twoRecords 12) =
    .ok (some (⟨7, 1, 0, 1, 2, 0, 0⟩, [0x61])) by decide) true false).2).mpr
    (by decide)

/-- **A second name that points behind the packet**: the record is not counted, but its address is
stored behind the memory for one address. -/
theorem ansProcResp_overflow :
    ansQuestion (twoRecords 0xff) = .ok (some (⟨7, 1, 0, 1, 2, 0, 0⟩, [0x61])) ∧
      ansProcResp (twoRecords 0xff) ⟨7, 1, 0, 1, 2, 0, 0⟩ true false true = .error .overwrite ∧
      ¬StoresAll (twoRecords 0xff) ⟨7, 1, 0, 1, 2, 0, 0⟩ true false := by
  have hrun : ansProcResp (twoRecords 0xff) ⟨7, 1, 0, 1, 2, 0, 0⟩ true false true =
    .error .overwrite := by decide
  refine ⟨by decide, hrun, ?_⟩
  rintro ⟨res, hres, -⟩
  rw [hrun] at hres
  cases hres

end Proc

end Dns

end FF
