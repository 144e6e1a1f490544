import FF.Dns.Client
import FF.Lib.Separated
import Mathlib.Data.List.Induction

/-!
# The question with a host name

`ffdns_addquery` writes a question for a host name, and `ffdns_name` reads the name in it. A host
name is labels with dots between them, and perhaps one behind the last. The number of bytes that is
returned has 32 bits, so that there has to be room in it for a name.
-/

namespace FF

namespace Dns

open List Option

/-- What `ffdns_encodename` returns, a number of 32 bits. -/
def encodenameRet (cap : ℕ) (name : List UInt8) : ℕ :=
  match ffdnsEncodename cap name with
  | none => 0
  | some out => out.length % 2 ^ 32

/-- Labels with dots between them, and perhaps a dot behind the last. -/
def IsHost (name : List UInt8) (ls : List (List UInt8)) : Prop :=
  ls ≠ [] ∧ (∀ l ∈ ls, IsLabel l) ∧
    (name = [DOT].intercalate ls ∨ name = [DOT].intercalate ls ++ [DOT])

/-! ### The text of labels -/

section Text

variable {ls : List (List UInt8)} {l name out cs : List UInt8} {sz cap : ℕ} {c : UInt8}

theorem intercalate_tailText (l : List UInt8) (ls : List (List UInt8)) :
    [DOT].intercalate (l :: ls) = l ++ tailText ls := by
  induction ls generalizing l with
  | nil => rw [intercalate_singleton, tailText, flatMap_nil, append_nil]
  | cons m ls ih =>
    rw [intercalate_cons_cons, ih m, append_assoc]
    rfl

theorem dotted_eq (hne : ls ≠ []) : dotted ls = [DOT].intercalate ls ++ [DOT] := by
  obtain ⟨l, ls, rfl⟩ := exists_cons_of_ne_nil hne
  rw [intercalate_tailText, tailText_dot]

theorem getLast?_intercalate (hls : ∀ l ∈ ls, IsLabel l) :
    ([DOT].intercalate ls).getLast? ≠ some DOT := by
  rcases eq_nil_or_concat' ls with rfl | ⟨init, m, rfl⟩
  · exact nofun
  obtain ⟨hne, -, hdot⟩ := hls m (by simp)
  obtain ⟨c, hc⟩ := ne_none_iff_exists'.mp (mt getLast?_eq_none_iff.mp hne)
  have hlast : ([DOT].intercalate (init ++ [m])).getLast? = some c := by
    by_cases hinit : init = []
    · rw [hinit, nil_append, intercalate_singleton, hc]
    · rw [intercalate_append hinit (cons_ne_nil _ _), intercalate_singleton,
        append_cons, getLast?_append, hc, some_or]
  rw [hlast]
  intro h
  rw [some.inj h] at hc
  exact hdot (mem_of_getLast? hc)

/-! ### What is encoded -/

theorem encodeLoop_chars (hdot : DOT ∉ l) (hlen : sz + l.length ≤ FFDNS_MAXLABEL) :
    encodeLoop (l ++ cs) out sz = encodeLoop cs (l.reverse ++ out) (sz + l.length) := by
  induction l generalizing out sz with
  | nil => rfl
  | cons c l ih =>
    rw [mem_cons, not_or] at hdot
    rw [length_cons] at hlen ⊢
    rw [cons_append, encodeLoop, if_neg (Ne.symm hdot.1), if_neg (by omega),
      ih hdot.2 (by omega), reverse_cons, append_assoc, singleton_append,
      Nat.add_right_comm, Nat.add_assoc]

/-- The labels of a text, from the last one on: the first of them is still without its length. -/
theorem encodeLoop_labels (hl : IsLabel l) (hls : ∀ m ∈ ls, IsLabel m) :
    encodeLoop (l ++ tailText ls).reverse out 0 = some (l ++ wire ls ++ out, l.length) := by
  induction ls using List.reverseRecOn generalizing out with
  | nil =>
    obtain ⟨-, hlen, hdot⟩ := hl
    have hchars := @encodeLoop_chars l.reverse out [] 0 (by rwa [mem_reverse])
      (by rwa [length_reverse, Nat.zero_add])
    rw [append_nil, reverse_reverse, length_reverse, Nat.zero_add] at hchars
    rw [tailText, flatMap_nil, append_nil, wire_nil, append_nil, hchars]
    rfl
  | append_singleton ls m ih =>
    obtain ⟨hne, hlen, hdot⟩ := hls m (by simp)
    have hrest : ∀ k ∈ ls, IsLabel k := fun k hk => hls k (mem_append_left _ hk)
    have htext : (l ++ tailText (ls ++ [m])).reverse =
        m.reverse ++ DOT :: (l ++ tailText ls).reverse := by
      simp [tailText]
    have hpos : m.length ≠ 0 := fun h => hne (length_eq_zero_iff.mp h)
    rw [htext, encodeLoop_chars (by rwa [mem_reverse])
      (by rwa [length_reverse, Nat.zero_add]), reverse_reverse, length_reverse,
      Nat.zero_add, encodeLoop, if_pos rfl, if_neg hpos, ih hrest]
    simp [wire, wireLabel]

/-- **A host name is encoded** to its labels, and the zero byte if there is a dot at the end. -/
theorem IsHost.encodename (h : IsHost name ls) (hcap : name.length + 1 ≤ cap) :
    ffdnsEncodename cap name =
      some (wire ls ++ if name.getLast? = some DOT then [0] else []) := by
  obtain ⟨hne, hls, hname⟩ := h
  obtain ⟨l, ls, rfl⟩ := exists_cons_of_ne_nil hne
  obtain ⟨hl, hrest⟩ := forall_mem_cons.mp hls
  have hroom : ¬cap < name.length + 1 := by omega
  have hpos : l.length ≠ 0 := fun h => hl.1 (length_eq_zero_iff.mp h)
  have hlast := getLast?_intercalate hls
  rw [intercalate_tailText] at hname hlast
  have hnil : l ++ tailText ls ≠ [] := fun h => hl.1 (append_eq_nil_iff.mp h).1
  rcases hname with rfl | rfl
  · have hroot : l ++ tailText ls ≠ [DOT] := by
      intro h
      rw [h] at hlast
      exact hlast rfl
    rw [ffdnsEncodename, if_neg hnil, if_neg hroom, if_neg hroot, encodeLabels, if_neg hlast,
      encodeLoop_labels hl hrest, if_neg hlast]
    dsimp only
    rw [if_neg hpos]
    rfl
  have hend : (l ++ tailText ls ++ [DOT]).getLast? = some DOT := getLast?_concat
  have hroot : l ++ tailText ls ++ [DOT] ≠ [DOT] := fun h => hnil (append_left_eq_self.mp h)
  rw [ffdnsEncodename, if_neg (append_ne_nil_of_left_ne_nil hnil _), if_neg hroom, if_neg hroot,
    encodeLabels, if_pos hend, dropLast_concat, encodeLoop_labels hl hrest, if_pos hend]
  dsimp only
  rw [if_neg hpos]
  rfl

/-- **The host names, and the text `"."`, are what is accepted.** -/
theorem ffdnsEncodename_iff (hcap : name.length + 1 ≤ cap) :
    (∃ out, ffdnsEncodename cap name = some out) ↔ name = [DOT] ∨ ∃ ls, IsHost name ls := by
  constructor
  · rintro ⟨out, h⟩
    rcases ffdnsEncodename_spec h with ⟨hroot, -⟩ | ⟨ls, hne, hls, ⟨hname, -⟩ | ⟨hname, -, -⟩⟩
    · exact .inl hroot
    · rw [dotted_eq hne] at hname
      exact .inr ⟨ls, hne, hls, .inr hname⟩
    · rw [dotted_eq hne] at hname
      exact .inr ⟨ls, hne, hls, .inl (append_cancel_right hname)⟩
  · rintro (rfl | ⟨ls, h⟩)
    · refine ⟨[0], ?_⟩
      rw [ffdnsEncodename, if_neg (cons_ne_nil _ _), if_neg (by omega), if_pos rfl]
    · exact ⟨_, h.encodename hcap⟩

theorem length_encodename (h : ffdnsEncodename cap name = some out) :
    0 < out.length ∧ out.length ≤ name.length + 1 := by
  rcases ffdnsEncodename_spec h with
    ⟨rfl, rfl⟩ | ⟨ls, -, -, ⟨rfl, rfl⟩ | ⟨hname, -, rfl⟩⟩
  · decide
  · rw [length_append, length_dotted, length_singleton]
    omega
  · have hlen := congrArg List.length hname
    rw [length_dotted, length_append, length_singleton] at hlen
    omega

theorem encodenameRet_ne_zero (hlen : name.length + 1 < 2 ^ 32) :
    encodenameRet cap name ≠ 0 ↔ ∃ out, ffdnsEncodename cap name = some out := by
  rw [encodenameRet]
  cases henc : ffdnsEncodename cap name with
  | none => exact ⟨fun h => absurd rfl h, fun ⟨_, h⟩ => nomatch h⟩
  | some out =>
    obtain ⟨hpos, hle⟩ := length_encodename henc
    refine ⟨fun _ => ⟨out, rfl⟩, fun _ => ?_⟩
    dsimp only
    rw [Nat.mod_eq_of_lt (by omega)]
    omega

/-! ### The question -/

theorem IsHost.addquery (h : IsHost name ls) (type : ℕ) (hcap : name.length + 6 ≤ cap) :
    ffdnsAddquery cap name type = some (wire ls ++ 0 :: (be16 type ++ be16 FFDNS_IN)) := by
  have henc := h.encodename (by omega : name.length + 1 ≤ cap)
  have hlen := (length_encodename henc).2
  have hroom : ¬(wire ls ++ if name.getLast? = some DOT then [0] else []).length + QUES_SIZE + 1 >
      cap := by
    unfold QUES_SIZE
    omega
  rw [ffdnsAddquery, henc]
  dsimp only
  rw [if_neg hroom]
  by_cases hlast : name.getLast? = some DOT
  · rw [if_pos hlast, if_neg (not_not.mpr hlast), append_assoc, append_assoc]
    rfl
  · rw [if_neg hlast, if_pos hlast, append_nil, append_assoc, append_assoc]
    rfl

/-- **The name in the question**, anywhere in a message: `ffdns_name` reads the labels with a dot
behind each of them, and stops in front of the type. -/
def QuestionRead (size : ℕ) (ques : List UInt8) (type : ℕ) (ls : List (List UInt8)) : Prop :=
  ∀ pre post, ∃ pos, ffdnsName size (pre ++ ques ++ post) pre.length =
      .ok ([DOT].intercalate ls ++ [DOT], pos) ∧
    (pre ++ ques ++ post).drop pos = be16 type ++ be16 FFDNS_IN ++ post

theorem questionRead (hne : ls ≠ []) (hls : ∀ l ∈ ls, IsLabel l) (type : ℕ) {size : ℕ}
    (hsize : ([DOT].intercalate ls ++ [DOT]).length < size) :
    QuestionRead size (wire ls ++ 0 :: (be16 type ++ be16 FFDNS_IN)) type ls := by
  intro pre post
  rw [← dotted_eq hne] at hsize ⊢
  have hdrop : (pre ++ (wire ls ++ 0 :: (be16 type ++ be16 FFDNS_IN)) ++ post).drop pre.length =
      wire ls ++ 0 :: (be16 type ++ be16 FFDNS_IN ++ post) := by
    rw [append_assoc, drop_left, append_assoc, cons_append]
  refine ⟨_, (ffdnsName_labels hls hdrop (by omega)).trans (by rw [if_pos hsize]), ?_⟩
  rw [Nat.add_assoc, ← drop_drop, hdrop, ← drop_drop, drop_left]
  rfl

end Text

/-- **`ffdns_name` stays inside**: it reads in the message and writes in the buffer, and if it
returns a name, it stops where `ffdns_skipname` does. -/
def NameInside (size : ℕ) (resp : List UInt8) (p : ℕ) : Prop :=
  ∃ nm pos, ffdnsName size resp p = .ok (nm, pos) ∧ nm.length < size ∧
    (nm ≠ [] → ffdnsSkipname resp p = .ok pos)

/-- **Host names**: `ffdns_encodename` accepts these and the text `"."`; the name in a question is
read if there is room for it with a dot at the end; and in any message `ffdns_name` stays inside. -/
theorem ffdnsName_question (name : List UInt8) (hlen : name.length + 1 < 2 ^ 32) (cap : ℕ)
    (hcap : name.length + 1 ≤ cap) (size : ℕ) (hsize : 0 < size) (resp : List UInt8) (p : ℕ)
    (hp : p ≤ resp.length) :
    (encodenameRet cap name ≠ 0 ↔ name = [DOT] ∨ ∃ ls, IsHost name ls) ∧
      (∀ ls, IsHost name ls → ([DOT].intercalate ls ++ [DOT]).length < size →
        name.length + 6 ≤ cap → ∀ type, ∃ ques, ffdnsAddquery cap name type = some ques ∧
          QuestionRead size ques type ls) ∧
      NameInside size resp p := by
  refine ⟨(encodenameRet_ne_zero hlen).trans (ffdnsEncodename_iff hcap), ?_, ?_⟩
  · intro ls hname hfit hroom type
    exact ⟨_, hname.addquery type hroom, questionRead hname.1 hname.2.1 type hfit⟩
  · obtain ⟨nm, pos, hrun, hlt, -, hskip⟩ := ffdnsName_spec hsize hp
    exact ⟨nm, pos, hrun, hlt, hskip⟩

/-- The name `"my.com"`, and the message with the name at a position and a pointer to it. -/
theorem ffdnsName_question_com :
    (encodenameRet 12 [0x6d, 0x79, 0x2e, 0x63, 0x6f, 0x6d] ≠ 0 ↔
        [0x6d, 0x79, 0x2e, 0x63, 0x6f, 0x6d] = [DOT] ∨
          ∃ ls, IsHost [0x6d, 0x79, 0x2e, 0x63, 0x6f, 0x6d] ls) ∧
      (∀ ls, IsHost [0x6d, 0x79, 0x2e, 0x63, 0x6f, 0x6d] ls →
        ([DOT].intercalate ls ++ [DOT]).length < FFDNS_MAXNAME →
        [0x6d, 0x79, 0x2e, 0x63, 0x6f, 0x6d].length + 6 ≤ 12 → ∀ type, ∃ ques,
          ffdnsAddquery 12 [0x6d, 0x79, 0x2e, 0x63, 0x6f, 0x6d] type = some ques ∧
          QuestionRead FFDNS_MAXNAME ques type ls) ∧
      NameInside FFDNS_MAXNAME [1, 0x61, 0, 0xc0, 0] 3 :=
  ffdnsName_question _ (by decide) 12 (by decide) _ (by decide) _ 3 (by decide)

theorem length_dotted_replicate (c : UInt8) (n : ℕ) :
    (dotted (List.replicate n [c])).length = 2 * n := by
  induction n with
  | zero => rfl
  | succ n ih =>
    rw [replicate_succ, dotted_cons, length_append, length_singleton, length_cons, ih]
    omega

/-- The length of a host name is returned modulo `2 ^ 32`. -/
theorem encodenameRet_replicate {n : ℕ} (hn : n ≠ 0) :
    IsHost ([DOT].intercalate (List.replicate n [0x61])) (List.replicate n [0x61]) ∧
      encodenameRet (2 * n) ([DOT].intercalate (List.replicate n [0x61])) = 2 * n % 2 ^ 32 := by
  have hne : List.replicate n [(0x61 : UInt8)] ≠ [] := by simpa using hn
  have hhost : IsHost ([DOT].intercalate (List.replicate n [0x61])) (List.replicate n [0x61]) := by
    refine ⟨hne, fun l hl => ?_, .inl rfl⟩
    rw [eq_of_mem_replicate hl]
    exact ⟨cons_ne_nil _ _, by decide, by decide⟩
  have hlen := length_dotted_replicate 0x61 n
  have hwire := length_dotted (List.replicate n [(0x61 : UInt8)])
  rw [hlen] at hwire
  rw [dotted_eq hne, length_append, length_singleton] at hlen
  refine ⟨hhost, ?_⟩
  rw [encodenameRet, hhost.encodename hlen.le, if_neg (getLast?_intercalate hhost.2.1),
    append_nil, hwire]

/-- The name `"a"` is not read into two bytes; nothing can be written into a buffer of no bytes, and
nothing can be read behind a message; and there is a host name for which 0 is returned. -/
theorem ffdnsName_too_small :
    (IsHost [0x61] [[0x61]] ∧ ffdnsAddquery 7 [0x61] FFDNS_A = some [1, 0x61, 0, 0, 1, 0, 1] ∧
        ffdnsName 2 [1, 0x61, 0, 0, 1, 0, 1] 0 = .ok ([], 0)) ∧
      ffdnsName 0 [1, 0x61, 0] 0 = .error .overwrite ∧
      ffdnsName 2 [] 1 = .error .overread ∧
      ∃ name ls, IsHost name ls ∧ encodenameRet (2 ^ 32) name = 0 := by
  refine ⟨⟨⟨cons_ne_nil _ _, fun l hl => ?_, .inl rfl⟩, rfl, rfl⟩, rfl, rfl, ?_⟩
  · rw [mem_singleton.mp hl]
    exact ⟨cons_ne_nil _ _, by decide, by decide⟩
  · obtain ⟨hhost, hret⟩ := encodenameRet_replicate (by decide : 2 ^ 31 ≠ 0)
    exact ⟨_, _, hhost, hret⟩

end Dns

end FF
