import FF.Dns.Client
import FF.Lib.Refine
import Mathlib.Data.List.Nodup

/-!
# Which responses are matched to a query

A query is put into the tree under the hash value of its name that does not depend on the case,
with the name as it was given. The name in a response is searched by the hash value that does
depend on the case, without a dot at the end.
-/

namespace FF

namespace Dns

open List

/-! ### The keys in the tree -/

/-- The size of the buffer for the question of a query. -/
def QUES_CAP : ℕ := FFDNS_MAXMSG - HDR_SIZE

/-- A message with the question for the name. -/
def IsQuery (name : List UInt8) (type : ℕ) (msg : List UInt8) : Prop :=
  ∃ txid arcount ques tail, ffdnsAddquery QUES_CAP name type = some ques ∧
    msg = ffdnsInitquery txid arcount ++ ques ++ tail

/-- **The tree**: the keys are different, each one is the hash value of the name, and the messages
of a query have the question for its name. -/
structure Keyed (c : Client) : Prop where
  nodup : (c.queries.map Query.key).Nodup
  key : ∀ q ∈ c.queries, q.key = ffcrc32Iget q.name
  sent : ∀ q ∈ c.queries, IsQuery q.name FFDNS_A q.question4 ∧
    (q.question6 = [] ∨ IsQuery q.name FFDNS_AAAA q.question6)

namespace Keyed

variable {c : Client}

theorem find (hc : Keyed c) {q : Query} (hq : q ∈ c.queries) : c.find q.key = some q := by
  have hnd := hc.nodup
  unfold Client.find
  generalize c.queries = qs at hnd hq
  induction qs with
  | nil => cases hq
  | cons q' qs ih =>
    obtain ⟨hni, hnd⟩ := nodup_cons.mp hnd
    rcases mem_cons.mp hq with rfl | hq
    · simp
    · have hne : q'.key ≠ q.key := by
        intro he
        exact hni (he ▸ mem_map_of_mem hq)
      rw [find?_cons_of_neg (by simpa using hne)]
      exact ih hnd hq

/-- What does not change in a query. -/
def entry (q : Query) : UInt32 × List UInt8 × List UInt8 × List UInt8 :=
  (q.key, q.name, q.question4, q.question6)

theorem entry_inj {q q' : Query} (h : entry q' = entry q) :
    q'.key = q.key ∧ q'.name = q.name ∧ q'.question4 = q.question4 ∧
      q'.question6 = q.question6 := by
  simpa [entry] using h

theorem of_sublist {c' : Client} (hc : Keyed c)
    (h : (c'.queries.map entry).Sublist (c.queries.map entry)) : Keyed c' := by
  have hmem : ∀ q ∈ c'.queries, ∃ q' ∈ c.queries, entry q' = entry q := by
    intro q hq
    exact mem_map.mp (h.subset (mem_map_of_mem hq))
  refine ⟨?_, fun q hq => ?_, fun q hq => ?_⟩
  · have hkeys := h.map Prod.fst
    rw [map_map, map_map] at hkeys
    exact hkeys.nodup hc.nodup
  · obtain ⟨q', hq', he⟩ := hmem q hq
    obtain ⟨hk, hn, -, -⟩ := entry_inj he
    rw [← hk, ← hn]
    exact hc.key q' hq'
  · obtain ⟨q', hq', he⟩ := hmem q hq
    obtain ⟨-, hn, h4, h6⟩ := entry_inj he
    rw [← hn, ← h4, ← h6]
    exact hc.sent q' hq'

theorem modify (hc : Keyed c) {f : Query → Query} {key : UInt32}
    (hf : ∀ q ∈ c.queries, q.key = key → entry (f q) = entry q) : Keyed (c.modify key f) := by
  refine hc.of_sublist ?_
  have hmap : (c.modify key f).queries.map entry = c.queries.map entry := by
    rw [Client.modify, map_map]
    refine map_congr_left fun q hq => ?_
    simp only [Function.comp]
    split
    · exact hf q hq ‹_›
    · rfl
  rw [hmap]

theorem mem_of_find {key : UInt32} {q : Query} (h : c.find key = some q) :
    q ∈ c.queries ∧ q.key = key :=
  ⟨mem_of_find?_eq_some h, by simpa using find?_some h⟩

theorem fin (hc : Keyed c) (q : Query) (status : ℤ) : Keyed (c.fin q status) :=
  hc.of_sublist (filter_sublist.map entry)

theorem send (hc : Keyed c) (q : Query) (sends : List Bool) : Keyed (c.send q sends) := by
  unfold Client.send
  split
  · apply hc.modify
    intro q' _ _
    rfl
  · exact hc.fin q (-1)

theorem cons (hc : Keyed c) {q : Query} (hfree : c.find q.key = none)
    (hkey : q.key = ffcrc32Iget q.name) (hsent : IsQuery q.name FFDNS_A q.question4 ∧
      (q.question6 = [] ∨ IsQuery q.name FFDNS_AAAA q.question6)) :
    Keyed { c with queries := q :: c.queries } where
  nodup := by
    rw [map_cons, nodup_cons]
    refine ⟨fun hmem => ?_, hc.nodup⟩
    obtain ⟨q', hq', he⟩ := mem_map.mp hmem
    have hno := find?_eq_none.mp hfree q' hq'
    exact hno (by simpa using he)
  key := forall_mem_cons.mpr ⟨hkey, hc.key⟩
  sent := forall_mem_cons.mpr ⟨hsent, hc.sent⟩

theorem congr {c' : Client} (hc : Keyed c) (h : c'.queries = c.queries) : Keyed c' :=
  hc.of_sublist (by rw [h])

end Keyed

theorem queryPrep_some {edns : Bool} {bufSize txid type : ℕ} {host msg : List UInt8}
    (h : queryPrep edns bufSize txid host type = .ok (some msg)) : IsQuery host type msg := by
  unfold queryPrep at h
  split at h
  · cases h
  rename_i ques hques
  split at h
  · split at h
    · cases h
    · cases h
      exact ⟨txid, 1, ques, _, hques, rfl⟩
  · cases h
    exact ⟨txid, 0, ques, [], hques, (append_nil _).symm⟩

namespace Keyed

variable {c c' : Client}

theorem resolveNew (hc : Keyed c) {user : Quser} {host : List UInt8} {mem : Client.Mem}
    {txid4 txid6 : ℕ} {sends : List Bool} (hfree : c.find (ffcrc32Iget host) = none)
    (h : c.resolveNew user host mem txid4 txid6 sends = .ok c') : Keyed c' := by
  obtain ⟨buf4, hbuf4, h⟩ := bind_eq_ok.mp h
  cases buf4 with
  | none =>
    cases h
    exact hc.congr rfl
  | some buf4 =>
    obtain ⟨buf6, hbuf6, h⟩ := bind_eq_ok.mp h
    split at h
    · cases h
      exact hc.congr rfl
    cases h
    refine Keyed.send (hc.cons ?_ ?_ ?_) _ _
    · exact hfree
    · rfl
    refine ⟨queryPrep_some (mapError_eq_ok.mp hbuf4), ?_⟩
    cases buf6 with
    | none => exact .inl rfl
    | some buf6 =>
      unfold Client.prep6 at hbuf6
      split at hbuf6
      · exact .inr (queryPrep_some (mapError_eq_ok.mp hbuf6))
      · cases hbuf6

theorem resolve (hc : Keyed c) {name : List UInt8} {ondone udata : ℕ} {mem : Client.Mem}
    {rnd4 rnd6 : ℕ} {sends : List Bool}
    (h : c.resolve name ondone udata mem rnd4 rnd6 sends = .ok c') : Keyed c' := by
  have hc1 : Keyed { c with nreg := c.nreg + 1 } := hc.congr rfl
  unfold Client.resolve at h
  simp only at h
  split at h
  · exact hc1.resolveNew ‹_› h
  split at h
  · cases h
  split at h
  · cases h
    refine Keyed.congr (hc1.modify ?_) rfl
    intro q' _ _
    rfl
  · cases h
    apply hc1.modify
    intro q' _ _
    rfl

theorem cancel (hc : Keyed c) {host : List UInt8} {ondone udata : ℕ}
    (h : c.cancel host ondone udata = .ok c') : Keyed c' := by
  unfold Client.cancel at h
  split at h
  · cases h
    exact hc
  split at h
  · cases h
  split at h
  · cases h
    exact hc
  split at h
  · cases h
    exact hc
  · rename_i q _ _ _ _ i _
    cases h
    refine Keyed.congr (hc.modify ?_) rfl
    intro q' _ _
    rfl

theorem onexpire (hc : Keyed c) (key : UInt32) (sends : List Bool) :
    Keyed (c.onexpire key sends) := by
  unfold Client.onexpire
  split
  · exact hc
  · split
    · exact hc
    · split
      · exact hc.fin _ _
      · exact hc.send _ _

theorem ansStatus_entry {resp : List UInt8} {h : HdrHost} {q q' : Query} {is4 mem : Bool}
    (hrun : c.ansStatus resp h q is4 mem = .ok (c', q')) :
    c'.queries = c.queries ∧ entry q' = entry q := by
  unfold Client.ansStatus at hrun
  split at hrun
  · cases hrun
    exact ⟨rfl, rfl⟩
  obtain ⟨res, -, hrun⟩ := bind_eq_ok.mp hrun
  cases res with
  | none =>
    cases hrun
    exact ⟨rfl, rfl⟩
  | some r =>
    cases hrun
    exact ⟨rfl, rfl⟩

theorem ansFin (hc : Keyed c) {q q' : Query} (hq : q ∈ c.queries) (he : entry q' = entry q) :
    Keyed (c.ansFin q') := by
  unfold Client.ansFin
  split
  · apply hc.modify
    intro q'' hq'' hk
    have hfind := hc.find hq
    rw [← (entry_inj he).1, ← hk, hc.find hq''] at hfind
    rw [he, Option.some.inj hfind]
  · apply Keyed.fin
    exact hc.congr rfl

theorem ansFindQuery_mem {resp : List UInt8} {h : HdrHost} {q : Query}
    (hrun : c.ansFindQuery resp = .ok (some (h, q))) : q ∈ c.queries ∧ q.freed = false := by
  obtain ⟨r, -, hrun⟩ := bind_eq_ok.mp hrun
  cases r with
  | none => cases hrun
  | some r =>
    simp only at hrun
    split at hrun
    · cases hrun
    rename_i q' hfind
    split at hrun
    · cases hrun
    · split at hrun
      · cases hrun
      · rename_i hlive _
        cases hrun
        exact ⟨(mem_of_find hfind).1, by simpa using hlive⟩

theorem ansProc (hc : Keyed c) {resp : List UInt8} {mem : Bool}
    (hrun : c.ansProc resp mem = .ok c') : Keyed c' := by
  obtain ⟨r, hfind, hrun⟩ := bind_eq_ok.mp hrun
  cases r with
  | none =>
    cases hrun
    exact hc
  | some r =>
    obtain ⟨h, q⟩ := r
    have hq := (ansFindQuery_mem hfind).1
    simp only at hrun
    split at hrun
    · obtain ⟨⟨c1, q1⟩, hst, hrun⟩ := bind_eq_ok.mp hrun
      obtain ⟨hqs, he⟩ := ansStatus_entry hst
      cases hrun
      exact ansFin (q := q) (hc.congr hqs) (hqs ▸ hq) he
    split at hrun
    · obtain ⟨⟨c1, q1⟩, hst, hrun⟩ := bind_eq_ok.mp hrun
      obtain ⟨hqs, he⟩ := ansStatus_entry hst
      cases hrun
      exact ansFin (q := q) (hc.congr hqs) (hqs ▸ hq) he
    · cases hrun
      exact hc

theorem unref (hc : Keyed c) {r : ℕ} (h : c.unref r = .ok c') : Keyed c' := by
  unfold Client.unref at h
  split at h
  · cases h
    exact hc
  split at h
  · cases h
    exact hc
  split at h
  · cases h
  · cases h
  · cases h
    exact hc.congr rfl

theorem step (hc : Keyed c) {e : Client.Event} (h : c.next e = some c') : Keyed c' := by
  have h' : c.step e = .ok c' := by
    unfold Client.next at h
    cases hs : c.step e with
    | error _ =>
      rw [hs] at h
      cases h
    | ok c'' =>
      rw [hs] at h
      cases h
      rfl
  cases e with
  | resolve name ondone udata mem rnd4 rnd6 sends => exact hc.resolve h'
  | cancel name ondone udata => exact hc.cancel h'
  | response resp mem => exact hc.ansProc h'
  | expire key sends =>
    cases h'
    exact hc.onexpire key sends
  | unref r => exact hc.unref h'

/-- **The keys in the tree**, in every run. -/
theorem of_run {maxTries bufSize : ℕ} {enableIpv6 edns debugLog : Bool} {es : List Client.Event}
    (h : run Client.next (Client.new maxTries bufSize enableIpv6 edns debugLog) es = some c) :
    Keyed c := by
  have hgood : GoodRun Client.next (fun _ _ => True)
      (Client.new maxTries bufSize enableIpv6 edns debugLog) es :=
    GoodRun.of_forall (fun _ _ => trivial) _ es
  refine hgood.inv (fun hc _ hs => Keyed.step hc hs) ?_ h
  exact ⟨nodup_nil, by simp [Client.new], by simp [Client.new]⟩

end Keyed

/-! ### The question of a message -/

/-- The question section of a message with one question. -/
def questionSection (msg : List UInt8) : List UInt8 :=
  match ffdnsSkipname msg HDR_SIZE with
  | .ok p => (msg.drop HDR_SIZE).take (p - HDR_SIZE + QUES_SIZE)
  | .error _ => []

/-- **A response to the message**: a packet with its transaction id, with the flag of a response,
and with the same question section. -/
structure Echoes (msg resp : List UInt8) : Prop where
  len : HDR_SIZE ≤ resp.length
  id : resp.take 2 = msg.take 2
  qr : ∃ b : UInt8, resp[2]? = some b ∧ b >>> 7 = 1
  qdcount : (resp.drop 4).take 2 = (msg.drop 4).take 2
  question : ∃ rest, resp.drop HDR_SIZE = questionSection msg ++ rest

/-- The labels of a host name. -/
def NameOf (name : List UInt8) (ls : List (List UInt8)) : Prop :=
  (name = [DOT] ∧ ls = []) ∨
    (ls ≠ [] ∧ (name = dotted ls ∨ (name ++ [DOT] = dotted ls ∧ name.getLast? ≠ some DOT)))

theorem getLast?_dotted {ls : List (List UInt8)} (h : ls ≠ []) :
    (dotted ls).getLast? = some DOT := by
  obtain ⟨init, l, rfl⟩ := eq_nil_or_concat' ls |>.resolve_left h
  simp [dotted]

theorem ffdnsAddquery_spec {cap type : ℕ} {name ques : List UInt8}
    (h : ffdnsAddquery cap name type = some ques) :
    ∃ ls, (∀ l ∈ ls, IsLabel l) ∧ NameOf name ls ∧
      ques = wire ls ++ 0 :: (be16 type ++ be16 FFDNS_IN) := by
  unfold ffdnsAddquery at h
  split at h
  · cases h
  rename_i out henc
  split at h
  · cases h
  cases h
  rcases ffdnsEncodename_spec henc with ⟨rfl, rfl⟩ | ⟨ls, hne, hls, ⟨rfl, rfl⟩ | ⟨hname, hlast, rfl⟩⟩
  · exact ⟨[], by simp, .inl ⟨rfl, rfl⟩, by simp⟩
  · refine ⟨ls, hls, .inr ⟨hne, .inl rfl⟩, ?_⟩
    simp [getLast?_dotted hne]
  · refine ⟨ls, hls, .inr ⟨hne, .inr ⟨hname, hlast⟩⟩, ?_⟩
    simp [hlast]

/-- **The question section of a query** is the name on the wire, the type and the class. -/
theorem IsQuery.questionSection {name msg : List UInt8} {type : ℕ} (h : IsQuery name type msg) :
    (msg.drop 4).take 2 = be16 1 ∧ ∃ ls, (∀ l ∈ ls, IsLabel l) ∧ NameOf name ls ∧
      questionSection msg = wire ls ++ 0 :: (be16 type ++ be16 FFDNS_IN) := by
  obtain ⟨txid, arcount, ques, tail, hques, rfl⟩ := h
  obtain ⟨ls, hls, hname, rfl⟩ := ffdnsAddquery_spec hques
  refine ⟨rfl, ls, hls, hname, ?_⟩
  obtain ⟨body, hbody⟩ : ∃ body, body = be16 type ++ be16 FFDNS_IN := ⟨_, rfl⟩
  have hlen : body.length = QUES_SIZE := by rw [hbody]; rfl
  rw [← hbody]
  have hdrop : (ffdnsInitquery txid arcount ++ (wire ls ++ 0 :: body) ++ tail).drop HDR_SIZE =
      wire ls ++ 0 :: (body ++ tail) := by
    rw [append_assoc, drop_left' (by rfl)]
    simp
  unfold Dns.questionSection
  rw [ffdnsSkipname_labels hls hdrop]
  simp only [hdrop]
  have hn : HDR_SIZE + (wire ls).length + 1 - HDR_SIZE + QUES_SIZE =
      (wire ls ++ 0 :: body).length := by
    rw [length_append, length_cons, hlen]
    omega
  rw [hn, ← cons_append, ← append_assoc, take_left]

/-! ### The search for the query -/

section Echo

variable {resp msg name : List UInt8} {type : ℕ}

theorem ffdnsHdrtohost_echo (hq : IsQuery name type msg) (he : Echoes msg resp) :
    ∃ h, ffdnsHdrtohost resp = .ok h ∧ h.qr = 1 ∧ h.qdcount = 1 := by
  have hsz : 12 ≤ resp.length := he.len
  obtain ⟨b, hb, hqr⟩ := he.qr
  have hread : readAt resp 2 = .ok b := by rw [readAt, hb]
  unfold ffdnsHdrtohost
  rw [readBytes_eq (show 0 + 2 ≤ resp.length by omega), hread,
    readAt_eq (show 3 < resp.length by omega), readBytes_eq (show 4 + 2 ≤ resp.length by omega),
    readBytes_eq (show 6 + 2 ≤ resp.length by omega),
    readBytes_eq (show 8 + 2 ≤ resp.length by omega),
    readBytes_eq (show 10 + 2 ≤ resp.length by omega), he.qdcount, hq.questionSection.1]
  exact ⟨_, rfl, by simp [hqr], rfl⟩

/-- **What `ans_find_query` searches for** in a response to a query. -/
theorem ansQuestion_echo (hq : IsQuery name type msg) (he : Echoes msg resp) :
    ∃ h ls, (∀ l ∈ ls, IsLabel l) ∧ NameOf name ls ∧
      ansQuestion resp = .ok (if ls ≠ [] ∧ (dotted ls).length < FFDNS_MAXNAME then
        some (h, (dotted ls).dropLast) else none) := by
  obtain ⟨h, hh, hqr, hqd⟩ := ffdnsHdrtohost_echo hq he
  obtain ⟨-, ls, hls, hname, hsec⟩ := hq.questionSection
  obtain ⟨rest, hrest⟩ := he.question
  rw [hsec, append_assoc, cons_append] at hrest
  refine ⟨h, ls, hls, hname, ?_⟩
  have hdec := @ffdnsName_labels resp (be16 type ++ be16 FFDNS_IN ++ rest) FFDNS_MAXNAME ls
    HDR_SIZE hls hrest (by decide)
  have hlen := congrArg List.length hrest
  have h4 : (be16 type ++ be16 FFDNS_IN ++ rest).length = 4 + rest.length := by
    simp [be16]
    omega
  rw [length_drop, length_append, length_cons, h4] at hlen
  have hq4 : QUES_SIZE = 4 := rfl
  unfold ansQuestion
  rw [if_neg (Nat.not_lt.mpr he.len)]
  by_cases hfit : (dotted ls).length < FFDNS_MAXNAME
  · simp only [hh, hdec, if_pos hfit, bind, Except.bind, hqr, hqd, ne_eq, not_true, if_false]
    by_cases hnil : ls = []
    · simp [hnil, pure, Except.pure]
    have hne : dotted ls ≠ [] := by
      intro hd
      have hl := getLast?_dotted hnil
      rw [hd] at hl
      cases hl
    have hin : ¬HDR_SIZE + (wire ls).length + 1 + QUES_SIZE > resp.length := by omega
    have hclas : (resp.drop (HDR_SIZE + (wire ls).length + 1 + 2)).take 2 = be16 FFDNS_IN := by
      have hd : resp.drop (HDR_SIZE + (wire ls).length + 1) =
          be16 type ++ be16 FFDNS_IN ++ rest := by
        rw [Nat.add_assoc, ← drop_drop, hrest, ← drop_drop, drop_left]
        rfl
      rw [← drop_drop, hd]
      rfl
    have hques : ffdnsQuestohost resp (HDR_SIZE + (wire ls).length + 1) =
        .ok ⟨beNat ((resp.drop (HDR_SIZE + (wire ls).length + 1)).take 2), FFDNS_IN⟩ := by
      unfold ffdnsQuestohost
      rw [readBytes_eq (by omega), readBytes_eq (by omega), hclas]
      rfl
    simp only [hne, if_false, if_neg hin, hques, not_true, hnil, not_false_eq_true, hfit,
      and_self, if_true]
    rfl
  · simp only [hh, hdec, if_neg hfit, bind, Except.bind, hqr, hqd, ne_eq, not_true, if_false]
    simp [hfit, pure, Except.pure]

theorem ansFindQuery_iff {c : Client} {q : Query} {h : HdrHost}
    (hq : ansQuestion resp = .ok (some (h, name))) :
    (∃ h', c.ansFindQuery resp = .ok (some (h', q))) ↔
      c.find (ffcrc32Get name) = some q ∧ q.freed = false ∧ q.name = name := by
  unfold Client.ansFindQuery
  rw [hq]
  simp only [Except.mapError, bind, Except.bind]
  constructor
  · rintro ⟨h', hrun⟩
    split at hrun
    · cases hrun
    rename_i q' hfind
    split at hrun
    · cases hrun
    rename_i hlive
    split at hrun
    · cases hrun
    · rename_i hname
      cases hrun
      exact ⟨hfind, by simpa using hlive, not_not.mp hname⟩
  · rintro ⟨hfind, hlive, hname⟩
    refine ⟨h, ?_⟩
    simp [hfind, hlive, hname, pure, Except.pure]

theorem ansFindQuery_refused {c : Client} (hq : ansQuestion resp = .ok none) :
    c.ansFindQuery resp = .ok none := by
  unfold Client.ansFindQuery
  rw [hq]
  rfl

theorem Keyed.isQuery {c : Client} (hc : Keyed c) {q : Query} (hmem : q ∈ c.queries)
    (hmsg : msg = q.question4 ∨ msg = q.question6) (he : Echoes msg resp) :
    ∃ type, IsQuery q.name type msg := by
  obtain ⟨h4, h6⟩ := hc.sent q hmem
  rcases hmsg with rfl | rfl
  · exact ⟨FFDNS_A, h4⟩
  rcases h6 with h6 | h6
  · have hid := congrArg List.length he.id
    have hlen := he.len
    have h12 : HDR_SIZE = 12 := rfl
    rw [h6, take_nil, length_nil, length_take] at hid
    omega
  · exact ⟨FFDNS_AAAA, h6⟩

/-- **The search for the query.** A response to a message of a query in the tree is matched to the
query exactly when the name of the query has no dot at the end, fits into the buffer when it is
decoded, and has the same hash value with and without regard to case. -/
theorem ansFindQuery_echo {maxTries bufSize : ℕ} {enableIpv6 edns debugLog : Bool}
    {es : List Client.Event} {c : Client}
    (hrun : run Client.next (Client.new maxTries bufSize enableIpv6 edns debugLog) es = some c)
    {q : Query} (hmem : q ∈ c.queries) (hlive : q.freed = false)
    (hmsg : msg = q.question4 ∨ msg = q.question6) (he : Echoes msg resp) :
    (∃ h, c.ansFindQuery resp = .ok (some (h, q))) ↔
      q.name.getLast? ≠ some DOT ∧ q.name.length + 1 < FFDNS_MAXNAME ∧
        ffcrc32Get q.name = ffcrc32Iget q.name := by
  have hc := Keyed.of_run hrun
  obtain ⟨type, hq⟩ := hc.isQuery hmem hmsg he
  obtain ⟨h, ls, -, hname, hans⟩ := ansQuestion_echo hq he
  rcases hname with ⟨hroot, rfl⟩ | ⟨hne, hname | ⟨hname, hlast⟩⟩
  · rw [if_neg (by simp)] at hans
    simp [ansFindQuery_refused hans, hroot]
  · have hdot : q.name.getLast? = some DOT := by rw [hname, getLast?_dotted hne]
    refine ⟨?_, fun h => absurd hdot h.1⟩
    rintro ⟨h', hfound⟩
    split at hans
    · obtain ⟨-, -, hq'⟩ := (ansFindQuery_iff hans).mp ⟨h', hfound⟩
      rw [← hname] at hq'
      have hlen := congrArg List.length hq'
      have hpos : q.name ≠ [] := by
        intro hnil
        rw [hnil] at hdot
        cases hdot
      rw [length_dropLast] at hlen
      have hpos := length_pos_iff.mpr hpos
      omega
    · rw [ansFindQuery_refused hans] at hfound
      cases hfound
  have hdrop : (dotted ls).dropLast = q.name := by rw [← hname, dropLast_concat]
  have hlen : (dotted ls).length = q.name.length + 1 := by
    rw [← hname, length_append, length_singleton]
  rw [hdrop, hlen] at hans
  by_cases hfit : q.name.length + 1 < FFDNS_MAXNAME
  · rw [if_pos ⟨hne, hfit⟩] at hans
    rw [ansFindQuery_iff hans]
    constructor
    · rintro ⟨hfind, -, -⟩
      refine ⟨hlast, hfit, ?_⟩
      rw [← (Keyed.mem_of_find hfind).2, hc.key q hmem]
    · rintro ⟨-, -, hcrc⟩
      refine ⟨?_, hlive, rfl⟩
      rw [hcrc, ← hc.key q hmem]
      exact hc.find hmem
  · rw [if_neg (fun h => hfit h.2)] at hans
    simp [ansFindQuery_refused hans, hfit]

/-- The only query of a client that has registered one user for a name of one letter. -/
def letterQuery (c : UInt8) : Query where
  key := ffcrc32Iget [c]
  triesLeft := 4
  name := [c]
  res := []
  status := 0
  users := [⟨1, 2, 0⟩]
  txid4 := 7
  txid6 := 0
  need4 := true
  need6 := false
  question4 := [0, 7, 1, 0, 0, 1, 0, 0, 0, 0, 0, 0] ++ [1, c, 0, 0, 1, 0, 1]
  question6 := []
  timer := true
  freed := false

/-- The client with this query. -/
def letterClient (c : UInt8) : Client :=
  { Client.new 5 512 false false false with queries := [letterQuery c], nreg := 1 }

/-- The registration of the user. -/
def letterEvent (c : UInt8) : Client.Event :=
  .resolve [c] 1 2 ⟨true, true, true⟩ 7 0 [true]

/-- A response without records. -/
def letterResp (c : UInt8) : List UInt8 :=
  [0, 7, 0x80, 0, 0, 1, 0, 0, 0, 0, 0, 0] ++ [1, c, 0, 0, 1, 0, 1]

/-- The response for `a` is matched. -/
theorem ansFindQuery_echo_lower :
    ∃ h, (letterClient 0x61).ansFindQuery (letterResp 0x61) = .ok (some (h, letterQuery 0x61)) :=
  (ansFindQuery_echo (show run Client.next (Client.new 5 512 false false false)
    [letterEvent 0x61] = some (letterClient 0x61) by decide) (mem_singleton.mpr rfl)
    rfl (.inl rfl)
    ⟨by decide, by decide, ⟨0x80, rfl, by decide⟩, by decide, [], by decide⟩).mpr
    ⟨by decide, by decide, by decide⟩

/-- **A name with an upper case letter**: the response for `A` is not matched to the query that
waits for it. -/
theorem ansFindQuery_upper :
    run Client.next (Client.new 5 512 false false false) [letterEvent 0x41] =
        some (letterClient 0x41) ∧
      Echoes (letterQuery 0x41).question4 (letterResp 0x41) ∧
      (letterClient 0x41).ansFindQuery (letterResp 0x41) = .ok none :=
  ⟨by decide,
    ⟨by decide, by decide, ⟨0x80, rfl, by decide⟩, by decide, [], by decide⟩,
    by decide⟩

end Echo

end Dns

end FF
