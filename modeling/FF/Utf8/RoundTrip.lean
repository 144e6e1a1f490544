import FF.Utf8.Decode

/-!
# Numbers as UTF-8, and back

The writer makes the shortest sequence of a number. The reader takes each sequence, so that several
texts can stand for the same numbers.
-/

namespace FF

open List

/-- `FFUTF8_MAXCHARLEN` -/
def FFUTF8_MAXCHARLEN : ℕ := 6

/-- The numbers that are written one behind the other. -/
def utf8Text (cs : List UInt32) : List UInt8 := cs.flatMap (ffutf8Encode1 FFUTF8_MAXCHARLEN)

/-- **A sequence that is not the shortest one**: its bytes leave the upper bits zero that a shorter
one does not have. -/
def Utf8Seq.Overlong (q : Utf8Seq) : Prop :=
  (q.len = 2 ∧ q.first < 0xc2) ∨
    (3 ≤ q.len ∧ q.first.toNat = utf8Mark q.len ∧
      ∃ b ∈ q.rest.head?, b.toNat < 0x80 + 2 ^ (8 - q.len))

/-- **A text with such a sequence** -/
def OverlongText (s : List UInt8) : Prop := ∃ qs, s = seqsText qs ∧ ∃ q ∈ qs, q.Overlong

/-- **The text is canonical**: its numbers give it back. -/
def Utf8Canonical (s : List UInt8) : Prop :=
  ∃ steps, utf8Steps s = some steps ∧ utf8Text (steps.map Prod.snd) = s

section Write

variable {q : Utf8Seq} {qs : List Utf8Seq} {c : UInt32} {cs : List UInt32} {s s' : List UInt8}

theorem ffutf8Size_le (hc : c < 0x80000000) : ffutf8Size c ≤ FFUTF8_MAXCHARLEN := by
  rw [FFUTF8_MAXCHARLEN]
  rcases ffutf8Size_cases hc with h | h | h | h | h | h
  all_goals omega

theorem utf8Text_cons (c : UInt32) (cs : List UInt32) :
    utf8Text (c :: cs) = ffutf8Encode1 FFUTF8_MAXCHARLEN c ++ utf8Text cs := flatMap_cons

/-- **What is written are sequences.** -/
theorem utf8Text_seqs (hcs : ∀ c ∈ cs, c < 0x80000000) :
    ∃ qs, utf8Text cs = seqsText qs ∧
      qs.map (fun q => (q.len, UInt32.ofNat q.val)) = cs.map fun c => (ffutf8Size c, c) := by
  induction cs with
  | nil => exact ⟨[], rfl, rfl⟩
  | cons c cs ih =>
    rw [forall_mem_cons] at hcs
    obtain ⟨q, hbytes, hlen, hval⟩ := ffutf8Encode1_bytes hcs.1 (ffutf8Size_le hcs.1)
    obtain ⟨qs, htext, hmap⟩ := ih hcs.2
    refine ⟨q :: qs, ?_, ?_⟩
    · rw [utf8Text_cons, hbytes, htext]
      rfl
    · rw [map_cons, map_cons, hmap, hlen, hval, UInt32.ofNat_toNat]

/-! ### The round trip -/

/-- **What is written is read again** step by step, it is counted, and it is valid; a part of a
sequence asks for the whole of it. -/
theorem utf8_roundTrip (cs : List UInt32) (hcs : ∀ c ∈ cs, c < 0x80000000) :
    utf8Steps (utf8Text cs) = some (cs.map fun c => (ffutf8Size c, c)) ∧
      ffutf8Len (utf8Text cs) = cs.length ∧ ffutf8Valid (utf8Text cs) = true ∧
      ∀ c ∈ cs, ∀ len, 0 < len → len < ffutf8Size c → ∀ mem : List UInt8,
        mem.take len = (ffutf8Encode1 FFUTF8_MAXCHARLEN c).take len →
        ∃ res, ffutf8Decode1 mem len = some res ∧ res.ret = -(ffutf8Size c : ℤ) := by
  obtain ⟨qs, htext, hmap⟩ := utf8Text_seqs hcs
  have hsteps : utf8Steps (utf8Text cs) = some (cs.map fun c => (ffutf8Size c, c)) := by
    rw [htext, utf8Steps_seqs, hmap]
  refine ⟨hsteps, ?_, ?_, ?_⟩
  · have hlen := congrArg List.length hmap
    rw [length_map, length_map] at hlen
    rw [htext, ffutf8Len_seqs, hlen]
  · rw [ffutf8Valid_eq, hsteps]
    rfl
  · intro c hc len hpos hlen mem hmem
    obtain ⟨q, hbytes, hsize, -⟩ := ffutf8Encode1_bytes (hcs c hc) (ffutf8Size_le (hcs c hc))
    rw [hbytes] at hmem
    rw [← hsize] at hlen ⊢
    exact ⟨_, ffutf8Decode1_cut q hpos hlen hmem, rfl⟩

theorem utf8_roundTrip_example :
    utf8Steps (utf8Text [0x41, 0x44f, 0x7fffffff]) =
      some [(1, 0x41), (2, 0x44f), (6, 0x7fffffff)] := by
  have hsmall : ∀ c ∈ ([0x41, 0x44f, 0x7fffffff] : List UInt32), c < 0x80000000 := by
    simp
  exact (utf8_roundTrip [0x41, 0x44f, 0x7fffffff] hsmall).1

/-- Without a byte, the reader takes what lies behind: it does not ask for more. -/
theorem utf8_emptyPart :
    ¬∀ c : UInt32, c < 0x80000000 → ∀ len, len < ffutf8Size c → ∀ mem : List UInt8,
      mem.take len = (ffutf8Encode1 FFUTF8_MAXCHARLEN c).take len →
      ∃ res, ffutf8Decode1 mem len = some res ∧ res.ret = -(ffutf8Size c : ℤ) := by
  intro h
  obtain ⟨res, hres, hret⟩ := h 0x41 (by decide) 0 (by decide) [0x41] rfl
  have hchar : ffutf8Decode1 [0x41] 0 = some (.char 1 0x41) := by decide
  rw [hchar] at hres
  obtain rfl := Option.some.inj hres
  revert hret
  decide

/-! ### Shortest sequences -/

theorem toNat_val (q : Utf8Seq) : (UInt32.ofNat q.val).toNat = q.val := by
  have hlt := q.val_lt
  rw [UInt32.toNat_ofNat']
  exact Nat.mod_eq_of_lt (by omega)

theorem val_second {q : Utf8Seq} {b : UInt8} {ds : List UInt8} (hrest : q.rest = b :: ds) :
    q.val = ((q.first.toNat - utf8Mark q.len) * 64 + (b.toNat - 0x80)) * 64 ^ ds.length +
      tailVal 0 ds ∧ tailVal 0 ds < 64 ^ ds.length ∧ 0x80 ≤ b.toNat ∧ b.toNat < 0xc0 := by
  have hb := q.tail b (hrest ▸ mem_cons_self)
  simp only [UInt8.le_iff_toNat_le, UInt8.lt_iff_toNat_lt, UInt8.reduceToNat] at hb
  have hmod : b.toNat % 64 = b.toNat - 0x80 := by omega
  refine ⟨?_, tailVal_lt ds, hb⟩
  rw [Utf8Seq.val, hrest, tailVal_cons, tailVal_eq, hmod]

/-- **The bytes tell** whether the number has a shorter sequence. -/
theorem overlong_iff (q : Utf8Seq) : q.Overlong ↔ ffutf8Size (UInt32.ofNat q.val) ≠ q.len := by
  have hnat := toNat_val q
  have hlt := q.val_lt
  have hsmall : UInt32.ofNat q.val < 0x80000000 := by
    rw [UInt32.lt_iff_toNat_lt, hnat]
    exact hlt
  have hsize := ffutf8Size_cases hsmall
  have hsix : q.rest.length + 1 ≤ 6 := q.size
  have hlead : utf8Mark q.len ≤ q.first.toNat ∧
      q.first.toNat < utf8Mark q.len + 2 ^ utf8Bits q.len := q.lead
  rw [hnat] at hsize
  obtain ⟨S, hS⟩ : ∃ S, S = ffutf8Size (UInt32.ofNat q.val) := ⟨_, rfl⟩
  rw [← hS] at hsize ⊢
  cases hrest : q.rest with
  | nil =>
    have hone : q.len = 1 := by rw [Utf8Seq.len, hrest, length_nil]
    have hval : q.val = q.first.toNat := by
      rw [Utf8Seq.val, hone, hrest]
      exact Nat.sub_zero _
    rw [hone] at hlead ⊢
    have hmark : utf8Mark 1 = 0 ∧ 2 ^ utf8Bits 1 = 128 := by decide
    rw [Utf8Seq.Overlong, hone]
    omega
  | cons b ds =>
    obtain ⟨hval, htail, hb⟩ := val_second hrest
    have hlen : q.len = ds.length + 2 := by rw [Utf8Seq.len, hrest, length_cons]
    rw [hrest, length_cons] at hsix
    simp only [Utf8Seq.Overlong, hrest, UInt8.lt_iff_toNat_lt, UInt8.reduceToNat,
      head?_cons, Option.mem_some_iff, exists_eq_left']
    obtain ⟨k, hk⟩ : ∃ k, k = ds.length := ⟨_, rfl⟩
    rw [← hk] at hval htail hlen hsix
    rw [hlen] at hlead hval ⊢
    have hcases : k = 0 ∨ k = 1 ∨ k = 2 ∨ k = 3 ∨ k = 4 := by omega
    rcases hcases with rfl | rfl | rfl | rfl | rfl
    · have hmark : utf8Mark (0 + 2) = 192 ∧ 2 ^ utf8Bits (0 + 2) = 32 := by decide
      omega
    · have hmark : utf8Mark (1 + 2) = 224 ∧ 2 ^ utf8Bits (1 + 2) = 16 := by decide
      omega
    · have hmark : utf8Mark (2 + 2) = 240 ∧ 2 ^ utf8Bits (2 + 2) = 8 := by decide
      omega
    · have hmark : utf8Mark (3 + 2) = 248 ∧ 2 ^ utf8Bits (3 + 2) = 4 := by decide
      omega
    · have hmark : utf8Mark (4 + 2) = 252 ∧ 2 ^ utf8Bits (4 + 2) = 2 := by decide
      omega

/-- **The writer gives the sequence back** exactly if it is the shortest one. -/
theorem encode_seq_iff (q : Utf8Seq) :
    ffutf8Encode1 FFUTF8_MAXCHARLEN (UInt32.ofNat q.val) = q.bytes ↔ ¬q.Overlong := by
  have hsmall : UInt32.ofNat q.val < 0x80000000 := by
    rw [UInt32.lt_iff_toNat_lt, toNat_val]
    exact q.val_lt
  obtain ⟨q', hbytes, hlen, hval⟩ := ffutf8Encode1_bytes hsmall (ffutf8Size_le hsmall)
  rw [toNat_val] at hval
  rw [hbytes, overlong_iff, not_not, ← hlen]
  constructor
  · intro heq
    have hlength := congrArg List.length heq
    rwa [Utf8Seq.length_bytes, Utf8Seq.length_bytes] at hlength
  · exact fun h => Utf8Seq.bytes_inj h hval

/-- **Sequences are given back** exactly if each of them is the shortest one. -/
theorem canonical_seqs (qs : List Utf8Seq) :
    utf8Text (qs.map fun q => UInt32.ofNat q.val) = seqsText qs ↔ ∀ q ∈ qs, ¬q.Overlong := by
  constructor
  · intro heq q hq
    have hsmall : ∀ c ∈ qs.map fun q => UInt32.ofNat q.val, c < 0x80000000 := by
      intro c hc
      obtain ⟨q, -, rfl⟩ := mem_map.mp hc
      rw [UInt32.lt_iff_toNat_lt, toNat_val]
      exact q.val_lt
    have hsteps := (utf8_roundTrip _ hsmall).1
    rw [heq, utf8Steps_seqs, Option.some.injEq, map_map, map_inj_left] at hsteps
    rw [overlong_iff, not_not]
    exact (Prod.mk.inj (hsteps q hq)).1.symm
  intro h
  induction qs with
  | nil => rfl
  | cons q qs ih =>
    rw [forall_mem_cons] at h
    rw [map_cons, utf8Text_cons, ih h.2, (encode_seq_iff q).mpr h.1]
    rfl

/-- **Which texts are canonical**: a text that is valid is what the writer makes of its numbers
exactly if all of its sequences are the shortest ones; such texts differ in their numbers. -/
theorem ffutf8Valid_canonical (s : List UInt8) :
    ((ffutf8Valid s = true → Utf8Canonical s) ↔ ¬OverlongText s) ∧
      ∀ s' steps steps', ¬OverlongText s → ¬OverlongText s' → utf8Steps s = some steps →
        utf8Steps s' = some steps' → steps.map Prod.snd = steps'.map Prod.snd → s = s' := by
  have hback : ∀ s steps, ¬OverlongText s → utf8Steps s = some steps →
      utf8Text (steps.map Prod.snd) = s := by
    intro s steps hno hsteps
    obtain ⟨qs, rfl, rfl⟩ := utf8Steps_some hsteps
    rw [map_map]
    exact (canonical_seqs qs).mpr fun q hq hover => hno ⟨qs, rfl, q, hq, hover⟩
  refine ⟨⟨?_, ?_⟩, ?_⟩
  · rintro h ⟨qs, rfl, q, hq, hover⟩
    have hsteps := utf8Steps_seqs qs
    obtain ⟨steps, hsteps', heq⟩ := h (by rw [ffutf8Valid_eq, hsteps]; rfl)
    rw [hsteps] at hsteps'
    obtain rfl := Option.some.inj hsteps'
    rw [map_map] at heq
    exact (canonical_seqs qs).mp heq q hq hover
  · intro hno hvalid
    rw [ffutf8Valid_eq] at hvalid
    obtain ⟨steps, hsteps⟩ := Option.isSome_iff_exists.mp hvalid
    exact ⟨steps, hsteps, hback s steps hno hsteps⟩
  · intro s' steps steps' hno hno' hsteps hsteps' heq
    rw [← hback s steps hno hsteps, heq, hback s' steps' hno' hsteps']

/-- Two bytes that stand for the number zero are valid. -/
theorem ffutf8Valid_overlong : ¬∀ s, ffutf8Valid s = true → Utf8Canonical s := by
  intro h
  have hread : ffutf8Decode1 [0xc0, 0x80] 2 = some (.char 2 0) := by decide
  have hsteps : utf8Steps [0xc0, 0x80] = some [(2, 0)] := by
    rw [utf8Steps]
    simp only [length_singleton, hread]
    rw [drop_succ_cons, drop_zero, utf8Steps, Option.map_some]
  obtain ⟨steps, hsteps', heq⟩ := h [0xc0, 0x80] (by rw [ffutf8Valid_eq, hsteps]; rfl)
  rw [hsteps] at hsteps'
  obtain rfl := Option.some.inj hsteps'
  exact absurd heq (by decide)

end Write

end FF
