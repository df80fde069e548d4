import Mathlib.Data.List.AList
import Mathlib.Data.List.Dedup

/-!
# Strings, errors and maps

A string is its bytes: keys and addresses are unrestricted, lengths count bytes and comparison is
bytewise. Errors are the trees `fmt.Errorf` and `status.Error` build, with `errors.Is` reading the
sentinels out of them. A map that is ranged over is an association list; the order of a range
over it is anything the runtime likes (`rangeKeys`).
-/

namespace Locache

/-- A string: its bytes. -/
abbrev GoString := List UInt8

abbrev Bytes := List UInt8

/-- A clock reading, in nanoseconds. -/
abbrev Time := Int

abbrev Duration := Int

/-- A literal of ASCII characters. -/
def ascii (s : String) : GoString := s.toList.map fun c => UInt8.ofNat c.toNat

/-- `strconv.FormatUint(n, 10)`. -/
def formatUint (n : Nat) : GoString := (Nat.toDigits 10 n).map fun c => UInt8.ofNat c.toNat

theorem toNat_of_mem_toDigits {n : Nat} {c : Char} (h : c ∈ Nat.toDigits 10 n) :
    48 ≤ c.toNat ∧ c.toNat ≤ 57 :=
  Char.isDigit_iff_toNat.1 (Nat.isDigit_of_mem_toDigits (by decide) (by decide) h)

/-- The text of a number is its digits. -/
theorem digit_of_mem_formatUint {n : Nat} {b : UInt8} (h : b ∈ formatUint n) :
    48 ≤ b.toNat ∧ b.toNat ≤ 57 := by
  obtain ⟨c, hc, rfl⟩ := List.mem_map.1 h
  have hd := toNat_of_mem_toDigits hc
  rw [UInt8.toNat_ofNat', Nat.mod_eq_of_lt (by omega)]
  exact hd

theorem formatUint_ne_nil (n : Nat) : formatUint n ≠ [] := by
  unfold formatUint
  rw [Ne, List.map_eq_nil_iff]
  exact Nat.toDigits_ne_nil

/-- The text of a number has no colon. -/
theorem colon_notMem_formatUint (n : Nat) : (58 : UInt8) ∉ formatUint n := by
  intro h
  exact absurd (digit_of_mem_formatUint h).2 (by decide)

theorem formatUint_injective : Function.Injective formatUint := by
  intro m n h
  -- the digits can be read off the text
  have hdigits : ∀ k, (formatUint k).map (fun b => Char.ofNat b.toNat) = Nat.toDigits 10 k := by
    intro k
    rw [formatUint, List.map_map]
    conv_rhs => rw [← List.map_id (Nat.toDigits 10 k)]
    apply List.map_congr_left
    intro c hc
    have hd := toNat_of_mem_toDigits hc
    simp only [Function.comp_apply, UInt8.toNat_ofNat', id_eq]
    rw [Nat.mod_eq_of_lt (by omega), Char.ofNat_toNat]
  rw [← Nat.ofDigitChars_ten_toDigits (n := m), ← hdigits m, h, hdigits n,
    Nat.ofDigitChars_ten_toDigits]

/-! ## Errors -/

/-- The package's error values. -/
inductive Sentinel where
  | keyRequired
  | valueRequired
  | groupClosed
  | cacheMiss
  | noOwner
  | peerUnavailable
  | topologyChanged
  | notOwner
  deriving DecidableEq, Repr

def Sentinel.text : Sentinel → GoString
  | .keyRequired => ascii "key is required"
  | .valueRequired => ascii "value is required"
  | .groupClosed => ascii "cache group is closed"
  | .cacheMiss => ascii "cache miss"
  | .noOwner => ascii "no cache owner available"
  | .peerUnavailable => ascii "cache owner is remote but no peer client is available"
  | .topologyChanged => ascii "cache membership changed during operation"
  | .notOwner => ascii "this node is not the current owner"

/-- The status codes of gRPC. -/
inductive Code where
  | ok
  | canceled
  | unknown
  | invalidArgument
  | deadlineExceeded
  | notFound
  | alreadyExists
  | permissionDenied
  | resourceExhausted
  | failedPrecondition
  | aborted
  | outOfRange
  | unimplemented
  | internal
  | unavailable
  | dataLoss
  | unauthenticated
  deriving DecidableEq, Repr

def Code.text : Code → GoString
  | .ok => ascii "OK"
  | .canceled => ascii "Canceled"
  | .unknown => ascii "Unknown"
  | .invalidArgument => ascii "InvalidArgument"
  | .deadlineExceeded => ascii "DeadlineExceeded"
  | .notFound => ascii "NotFound"
  | .alreadyExists => ascii "AlreadyExists"
  | .permissionDenied => ascii "PermissionDenied"
  | .resourceExhausted => ascii "ResourceExhausted"
  | .failedPrecondition => ascii "FailedPrecondition"
  | .aborted => ascii "Aborted"
  | .outOfRange => ascii "OutOfRange"
  | .unimplemented => ascii "Unimplemented"
  | .internal => ascii "Internal"
  | .unavailable => ascii "Unavailable"
  | .dataLoss => ascii "DataLoss"
  | .unauthenticated => ascii "Unauthenticated"

/-- An error value: a sentinel, a status error, a context error, any other error, or one that wraps
another (`fmt.Errorf` with `%w`, the text around it being `pre` and `post`). -/
inductive Err where
  | sentinel (s : Sentinel)
  | status (code : Code) (msg : GoString)
  | canceled
  | deadlineExceeded
  | other (msg : GoString)
  | wrap (pre : GoString) (inner : Err) (post : GoString)
  deriving DecidableEq, Repr

/-- `errors.Is(e, s)` for a sentinel. -/
def Err.is : Err → Sentinel → Bool
  | .sentinel s', s => s' = s
  | .wrap _ inner _, s => inner.is s
  | _, _ => false

/-- `e.Error()`. -/
def Err.text : Err → GoString
  | .sentinel s => s.text
  | .status code msg => ascii "rpc error: code = " ++ code.text ++ ascii " desc = " ++ msg
  | .canceled => ascii "context canceled"
  | .deadlineExceeded => ascii "context deadline exceeded"
  | .other msg => msg
  | .wrap pre inner post => pre ++ inner.text ++ post

/-- `status.Code(err)`: the code of the status error that `e` is or wraps. -/
def Err.code : Err → Code
  | .status code _ => code
  | .wrap _ inner _ => inner.code
  | _ => .unknown

@[simp] theorem Err.is_sentinel (s s' : Sentinel) : (Err.sentinel s).is s' = decide (s = s') := rfl

@[simp] theorem Err.is_wrap (pre post : GoString) (e : Err) (s : Sentinel) :
    (Err.wrap pre e post).is s = e.is s := rfl

/-! ## Ranging over a map -/

/-- The keys of a map in the order a range visits them. Go leaves the order open: `order` is what
the runtime chose, and every order of the keys arises from some `order` (`rangeKeys_of_perm`). -/
def rangeKeys {V : Type} (order : List GoString) (m : AList fun _ : GoString => V) :
    List GoString :=
  order.dedup.filter (fun k => decide (k ∈ m.keys)) ++ m.keys.filter (fun k => decide (k ∉ order))

theorem mem_rangeKeys {V : Type} {order : List GoString} {m : AList fun _ : GoString => V}
    {k : GoString} : k ∈ rangeKeys order m ↔ k ∈ m := by
  unfold rangeKeys
  rw [List.mem_append, List.mem_filter, List.mem_filter, List.mem_dedup, AList.mem_keys]
  simp only [decide_eq_true_eq]
  tauto

/-- A range visits no key twice. -/
theorem nodup_rangeKeys {V : Type} (order : List GoString) (m : AList fun _ : GoString => V) :
    (rangeKeys order m).Nodup := by
  unfold rangeKeys
  apply List.Nodup.append
  · exact (List.nodup_dedup order).filter _
  · exact m.keys_nodup.filter _
  · intro k hk hk'
    have hin := List.mem_dedup.1 (List.mem_of_mem_filter hk)
    have hout := (List.mem_filter.1 hk').2
    simp only [decide_eq_true_eq] at hout
    exact hout hin

theorem rangeKeys_of_perm {V : Type} {order : List GoString} {m : AList fun _ : GoString => V}
    (h : order.Perm m.keys) : rangeKeys order m = order := by
  have hnd : order.Nodup := h.nodup_iff.2 m.keys_nodup
  unfold rangeKeys
  rw [hnd.dedup, List.filter_eq_self.2, List.filter_eq_nil_iff.2, List.append_nil]
  · intro k hk
    simpa using h.mem_iff.2 hk
  · intro k hk
    simpa using h.mem_iff.1 hk

end Locache
