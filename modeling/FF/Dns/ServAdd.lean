import FF.Fflist
import FF.Net.Ip4

/-!
# Adding a DNS server

`ffdnscl_serv_add` makes an object for a server, puts it into the list of the client and then gets
what it needs for it. The object is freed where this fails, but it stays in the list.
-/

namespace FF

namespace Dns

open Net

/-! ### The function -/

/-- `ffdnscl_serv`: what `ffdnscl_serv_add` sets. -/
structure Serv where
  ansbuf : Bool
  addr : List UInt8
  port : ℕ
  saddr : List UInt8
  deriving DecidableEq, Repr

/-- An object after `ffmem_new`. -/
def Serv.zero : Serv := ⟨false, [], 0, []⟩

/-- `FFDNS_PORT` -/
def FFDNS_PORT : ℕ := 53

/-- `ffdnsclient`: the servers, with the memory that has their objects. -/
structure Servers (A : Type*) where
  links : Links A
  objs : Heap A Serv
  servs : Fflist A
  curserv : Option A

variable {A : Type*} [DecidableEq A]

/-- `ffmem_new(ffdnscl_serv)` -/
def Servers.new (r : Servers A) (serv : A) : Servers A :=
  { r with links := r.links.set serv .zero, objs := r.objs.set serv .zero }

/-- `ffmem_free(serv)` -/
def Servers.free (r : Servers A) (serv : A) : Servers A :=
  { r with links := r.links.erase serv, objs := r.objs.erase serv }

/-- `ffdnscl_serv_add`: `serv` is what `ffmem_new` returns, `ansbuf` tells whether `ffmem_alloc`
succeeds; `maxip4` bytes of the text are kept. `none` stands for an access to memory that is
not there. -/
def ffdnsclServAdd (maxip4 : ℕ) (serv : Option A) (ansbuf : Bool) (saddr : List UInt8)
    (r : Servers A) : Option (ℤ × Servers A) :=
  match serv with
  | none => some (-1, r)
  | some serv => do
      let r := r.new serv
      let (links, servs) ← fflistIns r.links r.servs serv
      let r := { r with links, servs }
      if !ansbuf then some (-1, r.free serv)
      else
        let r := { r with curserv := r.links.next r.servs.sentl }
        let (res, a4) := ffip4Parse saddr
        if res ≠ 0 then some (-1, r.free serv)
        else
          let obj : Serv := ⟨true, a4, FFDNS_PORT, saddr.take maxip4⟩
          some (0, { r with objs := r.objs.set serv obj })

/-! ### A call -/

section Call

variable {maxip4 : ℕ} {serv : Option A} {ansbuf : Bool} {saddr : List UInt8} {r out : Servers A}
  {l : List A} {a : A}

/-- The list is as it was before, and nothing leads to an object that is freed. -/
structure Servers.Same (l : List A) (serv : Option A) (r out : Servers A) : Prop where
  servs : out.servs = r.servs
  curserv : out.curserv = r.curserv
  links : ∀ b ∈ r.servs.sentl :: l, out.links b = r.links b
  freed : ∀ a, serv = some a → out.links a = none →
    ∀ b ∈ r.servs.sentl :: l, out.links.next b ≠ some a ∧ out.links.prev b ≠ some a

/-- **A call that fails leaves the list as it was.** -/
def ServAddClean (maxip4 : ℕ) (serv : Option A) (ansbuf : Bool) (saddr : List UInt8) (l : List A)
    (r : Servers A) : Prop :=
  ∃ ret out, ffdnsclServAdd maxip4 serv ansbuf saddr r = some (ret, out) ∧
    (ret = -1 → r.Same l serv out)

omit [DecidableEq A] in
theorem new_notMem (hl : r.servs.Holds r.links l) (hnew : r.links a = none) :
    a ∉ r.servs.sentl :: l := fun ha => by
  have hsome := hl.ring.isSome ha
  rw [hnew] at hsome
  cases hsome

/-- **The list with the new object.** -/
theorem ins_new (hl : r.servs.Holds r.links l) (hnew : r.links a = none) :
    ∃ links servs, fflistIns (r.new a).links (r.new a).servs a = some (links, servs) ∧
      servs.sentl = r.servs.sentl ∧ servs.Holds links (l ++ [a]) := by
  have hmem := new_notMem hl hnew
  have hl' : r.servs.Holds (r.new a).links l := hl.congr fun b hb =>
    Heap.set_of_ne _ _ fun hba => hmem (hba ▸ hb)
  have hsome : ((r.new a).links a).isSome := by
    have hself : (r.new a).links a = some .zero := Heap.set_self _ _ _
    rw [hself, Option.isSome_some]
  obtain ⟨links, servs, hins, hsentl, hholds, -, -⟩ :=
    fflistIns_spec hl' hsome hmem
  exact ⟨links, servs, hins, hsentl, hholds⟩

/-- **A server is added** to the end of the list, and the first one is the current one. -/
theorem servAdd_done (hl : r.servs.Holds r.links l) (hnew : r.links a = none)
    (hsaddr : (ffip4Parse saddr).1 = 0) :
    ∃ out, ffdnsclServAdd maxip4 (some a) true saddr r = some (0, out) ∧
      out.servs.Holds out.links (l ++ [a]) ∧ out.curserv = (l ++ [a]).head? := by
  obtain ⟨links, servs, hins, -, hholds⟩ := ins_new hl hnew
  rw [ffdnsclServAdd]
  simp only [hins, Option.bind_eq_bind, Option.bind_some, Bool.not_true, Bool.false_eq_true, if_false,
    hsaddr, ne_eq, not_true_eq_false]
  refine ⟨_, rfl, hholds, ?_⟩
  obtain ⟨x, hx, hnext, -⟩ := hholds.sentl_eq
  have hfirst : links.next servs.sentl = x.next := by rw [Links.next, hx, Option.bind_some]
  rw [hfirst, hnext]
  cases l <;> rfl

/-- **A call that fails behind the first allocation** leaves the object in the list. -/
theorem servAdd_failed (hl : r.servs.Holds r.links l) (hnew : r.links a = none)
    (hfail : ansbuf = false ∨ (ffip4Parse saddr).1 ≠ 0) :
    ∃ out, ffdnsclServAdd maxip4 (some a) ansbuf saddr r = some (-1, out) ∧
      out.servs.len = r.servs.len + 1 := by
  obtain ⟨links, servs, hins, -, hholds⟩ := ins_new hl hnew
  have hlen : servs.len = r.servs.len + 1 := by
    rw [hholds.len, hl.len, List.length_append, List.length_singleton]
  rw [ffdnsclServAdd]
  simp only [hins, Option.bind_eq_bind, Option.bind_some]
  cases ansbuf with
  | false => exact ⟨_, rfl, hlen⟩
  | true =>
    have hsaddr := hfail.resolve_left Bool.noConfusion
    rw [if_neg (by decide), if_pos hsaddr]
    exact ⟨_, rfl, hlen⟩

/-- **A call leaves the list as it was when it fails** if and only if it fails with its first
allocation, or it does not fail. -/
theorem servAdd_iff (maxip4 : ℕ) (serv : Option A) (ansbuf : Bool) (saddr : List UInt8)
    (hl : r.servs.Holds r.links l) (hnew : ∀ a, serv = some a → r.links a = none) :
    ServAddClean maxip4 serv ansbuf saddr l r ↔
      serv = none ∨ ansbuf = true ∧ (ffip4Parse saddr).1 = 0 := by
  cases serv with
  | none =>
    refine iff_of_true ⟨-1, r, rfl, fun _ => ⟨rfl, rfl, fun b _ => rfl, fun a ha => ?_⟩⟩ (.inl rfl)
    cases ha
  | some a =>
    by_cases hok : ansbuf = true ∧ (ffip4Parse saddr).1 = 0
    · obtain ⟨rfl, hsaddr⟩ := hok
      obtain ⟨out, hout, -⟩ := @servAdd_done A _ maxip4 saddr r l a hl (hnew a rfl) hsaddr
      exact iff_of_true ⟨0, out, hout, fun h => by cases h⟩ (.inr ⟨rfl, hsaddr⟩)
    have hfail : ansbuf = false ∨ (ffip4Parse saddr).1 ≠ 0 := by
      rw [not_and_or, Bool.not_eq_true] at hok
      exact hok
    obtain ⟨out, hout, hlen⟩ := @servAdd_failed A _ maxip4 ansbuf saddr r l a hl (hnew a rfl) hfail
    refine iff_of_false ?_ ?_
    · rintro ⟨ret, out', hout', hsame⟩
      rw [hout] at hout'
      obtain ⟨rfl, rfl⟩ := Prod.mk.inj (Option.some.inj hout')
      rw [(hsame rfl).servs] at hlen
      omega
    · rintro (h | h)
      · cases h
      · exact hok h

end Call

/-- A client without servers. -/
def noServers : Servers ℕ :=
  ⟨fun n => if n = 0 then some ⟨some 0, some 0⟩ else none, fun _ => none, ⟨0, 0⟩, none⟩

theorem noServers_holds : noServers.servs.Holds noServers.links [] :=
  ⟨ring_singleton.mpr ⟨rfl, rfl⟩, List.nodup_singleton 0, rfl⟩

/-- The address `8.8.8.8` is added. -/
theorem servAdd_iff_address :
    noServers.servs.Holds noServers.links [] ∧
      (ServAddClean 22 (some 1) true (ascii "8.8.8.8") [] noServers ↔
        some 1 = none ∨ true = true ∧ (ffip4Parse (ascii "8.8.8.8")).1 = 0) :=
  ⟨noServers_holds, servAdd_iff 22 (some 1) true (ascii "8.8.8.8") noServers_holds
    (fun a ha => by cases ha; rfl)⟩

/-- A host name is no address: the list has one server then, which has been freed. -/
theorem servAdd_name :
    ¬ServAddClean 22 (some 1) true (ascii "localhost") [] noServers := by
  rintro ⟨ret, out, hout, hsame⟩
  obtain ⟨out', hout', hlen⟩ := @servAdd_failed ℕ _ 22 true (ascii "localhost") noServers [] 1
    noServers_holds rfl (.inr (by decide))
  rw [hout'] at hout
  obtain ⟨rfl, rfl⟩ := Prod.mk.inj (Option.some.inj hout)
  rw [(hsame rfl).servs] at hlen
  cases hlen

end Dns

end FF
