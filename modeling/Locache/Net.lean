import Locache.Go

/-!
# Host, port and IP addresses

The functions of the packages `net` and `strings` that an address goes through. `splitHostPort`
accepts the two ways to write a host and a port without brackets, the port without colons, and no
other texts (`splitHostPort_sound`, `splitHostPort_complete`); `joinHostPort` writes one of them.
The text of an IPv4 address is digits and dots (`mem_dotted`).
-/

namespace Locache.Net

/-- The bytes of `:`, `[` and `]`. -/
def colon : UInt8 := 58

def leftBracket : UInt8 := 91

def rightBracket : UInt8 := 93

/-- `strings.IndexByte`. -/
def indexByte (s : GoString) (b : UInt8) : Option Nat := s.findIdx? (· = b)

/-- `strings.LastIndexByte`. -/
def lastIndexByte (s : GoString) (b : UInt8) : Option Nat :=
  (indexByte s.reverse b).map fun i => s.length - 1 - i

/-- `strings.Trim`, for a set of ASCII bytes. -/
def trim (s cutset : GoString) : GoString :=
  ((s.dropWhile (· ∈ cutset)).reverse.dropWhile (· ∈ cutset)).reverse

/-- The error `net.AddrError`. -/
def addrError (addr why : GoString) : Err :=
  .other (if addr = [] then why else ascii "address " ++ addr ++ ascii ": " ++ why)

/-- The end of `splitHostPort`: no other bracket may come from `j` or `k` on, and the port starts
after the colon at `i`. -/
def splitRest (hostport host : GoString) (i j k : Nat) : Except Err (GoString × GoString) :=
  if leftBracket ∈ hostport.drop j then
    .error (addrError hostport (ascii "unexpected '[' in address"))
  else if rightBracket ∈ hostport.drop k then
    .error (addrError hostport (ascii "unexpected ']' in address"))
  else .ok (host, hostport.drop (i + 1))

/-- `net.SplitHostPort`. -/
def splitHostPort (hostport : GoString) : Except Err (GoString × GoString) :=
  let missingPort := addrError hostport (ascii "missing port in address")
  let tooManyColons := addrError hostport (ascii "too many colons in address")
  -- the port starts after the last colon
  match lastIndexByte hostport colon with
  | none => .error missingPort
  | some i =>
    if hostport.head? = some leftBracket then
      -- the first closing bracket is expected just before the last colon
      match indexByte hostport rightBracket with
      | none => .error (addrError hostport (ascii "missing ']' in address"))
      | some closing =>
        if closing + 1 = hostport.length then .error missingPort
        else if closing + 1 = i then
          splitRest hostport ((hostport.take closing).drop 1) i 1 (closing + 1)
        else if hostport[closing + 1]? = some colon then .error tooManyColons
        else .error missingPort
    else if colon ∈ hostport.take i then .error tooManyColons
    else splitRest hostport (hostport.take i) i 0 0

/-- `net.JoinHostPort`: a host with a colon is taken for an IPv6 address. -/
def joinHostPort (host port : GoString) : GoString :=
  if colon ∈ host then leftBracket :: (host ++ rightBracket :: colon :: port)
  else host ++ colon :: port

theorem joinHostPort_ne_nil {host port : GoString} : joinHostPort host port ≠ [] := by
  unfold joinHostPort
  split <;> simp

/-! ## IP addresses -/

/-- An address of a network interface: `*net.IPNet`, or one of another type. -/
inductive Addr where
  | ipNet (ip : Bytes)
  | other

/-- `IP.To4`: the four bytes of an IPv4 address, also in the sixteen-byte form. -/
def to4 (ip : Bytes) : Option Bytes :=
  if ip.length = 4 then some ip
  else if ip.length = 16 ∧ ip.take 12 = List.replicate 10 0 ++ [255, 255] then some (ip.drop 12)
  else none

/-- `IP.IsLoopback`. -/
def isLoopback (ip : Bytes) : Bool :=
  match to4 ip with
  | some ip4 => ip4.head? = some 127
  | none => ip = List.replicate 15 0 ++ [1]

/-- `IP.String` of an IPv4 address. -/
def dotted : Bytes → GoString
  | [] => []
  | [b] => formatUint b.toNat
  | b :: ip => formatUint b.toNat ++ ascii "." ++ dotted ip

theorem to4_ne_nil {ip ip4 : Bytes} (h : to4 ip = some ip4) : ip4 ≠ [] := by
  unfold to4 at h
  rintro rfl
  split at h
  · next hlen =>
    cases h
    cases hlen
  · split at h
    · next hlen =>
      have hdrop := List.length_drop (i := 12) (l := ip)
      rw [Option.some.inj h, hlen.1] at hdrop
      cases hdrop
    · cases h

/-- The text of an IPv4 address is digits and dots. -/
theorem mem_dotted {ip : Bytes} {b : UInt8} (h : b ∈ dotted ip) : 46 ≤ b.toNat ∧ b.toNat ≤ 57 := by
  have hdigit : ∀ n, b ∈ formatUint n → 46 ≤ b.toNat ∧ b.toNat ≤ 57 := by
    intro n hb
    have := digit_of_mem_formatUint hb
    omega
  fun_induction dotted ip with
  | case1 => cases h
  | case2 a => exact hdigit _ h
  | case3 a ip _ ih =>
    rw [List.mem_append, List.mem_append] at h
    rcases h with (h | h) | h
    · exact hdigit _ h
    · cases List.mem_singleton.1 h
      decide
    · exact ih h

theorem dotted_ne_nil {ip : Bytes} (h : ip ≠ []) : dotted ip ≠ [] := by
  fun_cases dotted ip with
  | case1 => exact absurd rfl h
  | case2 a => exact formatUint_ne_nil _
  | case3 a ip _ =>
    rw [Ne, List.append_eq_nil_iff, List.append_eq_nil_iff, not_and_or, not_and_or]
    exact Or.inl (Or.inl (formatUint_ne_nil _))

/-! ## Positions of bytes -/

variable {s A B host port : GoString} {b : UInt8} {i : Nat}

theorem indexByte_append (h : b ∉ A) : indexByte (A ++ b :: B) b = some A.length := by
  induction A with
  | nil => simp [indexByte, List.findIdx?_cons]
  | cons a A ih =>
    rw [List.mem_cons, not_or] at h
    have := ih h.2
    unfold indexByte at this ⊢
    rw [List.cons_append, List.findIdx?_cons, this]
    simp [Ne.symm h.1]

theorem exists_of_indexByte (h : indexByte s b = some i) :
    ∃ A B, s = A ++ b :: B ∧ A.length = i ∧ b ∉ A := by
  induction s generalizing i with
  | nil => simp [indexByte] at h
  | cons a s ih =>
    unfold indexByte at h ih
    rw [List.findIdx?_cons] at h
    by_cases ha : a = b
    · subst ha
      simp only [decide_true, ↓reduceIte, Option.some.injEq] at h
      subst h
      exact ⟨[], s, rfl, rfl, by simp⟩
    · simp only [ha, decide_false, Bool.false_eq_true, ↓reduceIte, Option.map_eq_some_iff] at h
      obtain ⟨j, hj, rfl⟩ := h
      obtain ⟨A, B, rfl, rfl, hA⟩ := ih hj
      refine ⟨a :: A, B, rfl, rfl, ?_⟩
      simp [hA, Ne.symm ha]

theorem lastIndexByte_append (h : b ∉ B) : lastIndexByte (A ++ b :: B) b = some A.length := by
  have hrev : (A ++ b :: B).reverse = B.reverse ++ b :: A.reverse := by simp
  unfold lastIndexByte
  rw [hrev, indexByte_append (by simpa using h)]
  simp

theorem exists_of_lastIndexByte (h : lastIndexByte s b = some i) :
    ∃ A B, s = A ++ b :: B ∧ A.length = i ∧ b ∉ B := by
  obtain ⟨j, hj, rfl⟩ := Option.map_eq_some_iff.1 h
  obtain ⟨A, B, hs, rfl, hA⟩ := exists_of_indexByte hj
  obtain rfl : s = B.reverse ++ b :: A.reverse := by
    rw [← List.reverse_reverse s, hs]
    simp
  refine ⟨B.reverse, A.reverse, rfl, ?_, by simpa using hA⟩
  simp

theorem trim_eq_self {cutset : GoString} (h : ∀ b ∈ s, b ∉ cutset) : trim s cutset = s := by
  have hdrop : ∀ l : GoString, (∀ b ∈ l, b ∉ cutset) → l.dropWhile (· ∈ cutset) = l := by
    intro l hl
    cases l with
    | nil => rfl
    | cons a l => simp [hl a List.mem_cons_self]
  unfold trim
  rw [hdrop s h, hdrop s.reverse fun b hb => h b (List.mem_reverse.1 hb), List.reverse_reverse]

/-! ## Splitting and joining -/

/-- A text without brackets. -/
def Plain (s : GoString) : Prop := leftBracket ∉ s ∧ rightBracket ∉ s

theorem splitRest_eq_ok {hostport out : GoString} {j k : Nat}
    (h : splitRest hostport host i j k = .ok (out, port)) :
    leftBracket ∉ hostport.drop j ∧ rightBracket ∉ hostport.drop k ∧ out = host ∧
      port = hostport.drop (i + 1) := by
  unfold splitRest at h
  split at h
  · cases h
  · next hl =>
    split at h
    · cases h
    · next hr =>
      cases h
      exact ⟨hl, hr, rfl, rfl⟩

/-- The two ways to write a host and a port. -/
inductive Joined (host port : GoString) : GoString → Prop where
  | bracketed : Joined host port (leftBracket :: (host ++ rightBracket :: colon :: port))
  | bare (hcolon : colon ∉ host) : Joined host port (host ++ colon :: port)

theorem joined_joinHostPort : Joined host port (joinHostPort host port) := by
  unfold joinHostPort
  split
  · exact .bracketed
  · next hcolon => exact .bare hcolon

/-- **What comes out of `splitHostPort`.** -/
theorem splitHostPort_sound {hostport : GoString} (h : splitHostPort hostport = .ok (host, port)) :
    Plain host ∧ Plain port ∧ colon ∉ port ∧ Joined host port hostport := by
  unfold splitHostPort at h
  dsimp only at h
  split at h
  · cases h
  next i hi =>
  obtain ⟨A, B, rfl, rfl, hB⟩ := exists_of_lastIndexByte hi
  have hport : (A ++ colon :: B).drop (A.length + 1) = B := by simp
  split at h
  · next hhead =>
    split at h
    · cases h
    next closing hclosing =>
    split at h
    · cases h
    split at h
    · next hend =>
      obtain ⟨hl, hr, rfl, rfl⟩ := splitRest_eq_ok h
      obtain ⟨A', B', hA', rfl, hno⟩ := exists_of_indexByte hclosing
      -- the bracket stands just before the last colon, so these are the two ends of one text
      obtain ⟨rfl, rfl⟩ : A = A' ++ [rightBracket] ∧ colon :: B = B' := by
        have hends : A ++ colon :: B = (A' ++ [rightBracket]) ++ B' := by
          rw [hA', List.append_assoc, List.singleton_append]
        exact List.append_inj hends (by simp [hend])
      cases A' with
      | nil => cases hhead
      | cons b host =>
        cases hhead
        have hrest : (leftBracket :: host ++ [rightBracket] ++ colon :: B).drop 1 =
            host ++ rightBracket :: colon :: B := by simp
        have htake : ((leftBracket :: host ++ [rightBracket] ++ colon :: B).take
            (leftBracket :: host).length).drop 1 = host := by simp
        have hafter : (leftBracket :: host ++ [rightBracket] ++ colon :: B).drop
            ((leftBracket :: host).length + 1) = colon :: B := by simp
        rw [hrest] at hl
        rw [hafter] at hr
        rw [htake, hport]
        refine ⟨⟨fun hm => hl ?_, fun hm => hno ?_⟩, ⟨fun hm => hl ?_, fun hm => hr ?_⟩, hB, ?_⟩
        · exact List.mem_append_left _ hm
        · exact List.mem_cons_of_mem _ hm
        · exact List.mem_append_right _ (List.mem_cons_of_mem _ (List.mem_cons_of_mem _ hm))
        · exact List.mem_cons_of_mem _ hm
        · have hjoined : Joined host B (leftBracket :: (host ++ rightBracket :: colon :: B)) :=
            .bracketed
          simpa using hjoined
    · split at h <;> cases h
  · split at h
    · cases h
    · next hcolon =>
      obtain ⟨hl, hr, rfl, rfl⟩ := splitRest_eq_ok h
      rw [List.drop_zero] at hl hr
      rw [List.take_left] at hcolon ⊢
      rw [hport]
      refine ⟨⟨fun hm => hl ?_, fun hm => hr ?_⟩, ⟨fun hm => hl ?_, fun hm => hr ?_⟩, hB,
        .bare hcolon⟩
      · exact List.mem_append_left _ hm
      · exact List.mem_append_left _ hm
      · exact List.mem_append_right _ (List.mem_cons_of_mem _ hm)
      · exact List.mem_append_right _ (List.mem_cons_of_mem _ hm)

/-- **What `splitHostPort` accepts.** -/
theorem splitHostPort_complete {hostport : GoString} (hhost : Plain host) (hport : Plain port)
    (hcolon : colon ∉ port) (h : Joined host port hostport) :
    splitHostPort hostport = .ok (host, port) := by
  unfold splitHostPort
  dsimp only
  cases h with
  | bracketed =>
    have hlast : lastIndexByte (leftBracket :: (host ++ rightBracket :: colon :: port)) colon =
        some (host.length + 2) := by
      have := lastIndexByte_append (A := leftBracket :: (host ++ [rightBracket])) hcolon
      simpa using this
    have hfirst : indexByte (leftBracket :: (host ++ rightBracket :: colon :: port)) rightBracket =
        some (host.length + 1) := by
      have hno : rightBracket ∉ leftBracket :: host := by
        rw [List.mem_cons, not_or]
        exact ⟨by decide, hhost.2⟩
      exact indexByte_append (A := leftBracket :: host) hno
    have hl : leftBracket ∉ host ++ rightBracket :: colon :: port := by
      simp [hhost.1, hport.1, show leftBracket ≠ rightBracket by decide,
        show leftBracket ≠ colon by decide]
    have hr : rightBracket ∉ colon :: port := by
      simp [hport.2, show rightBracket ≠ colon by decide]
    have hdrop : (leftBracket :: (host ++ rightBracket :: colon :: port)).drop (host.length + 2) =
        colon :: port := by
      simp
    rw [hlast]
    dsimp only
    rw [if_pos List.head?_cons, hfirst]
    dsimp only
    rw [if_neg (by simp), if_pos rfl, splitRest, List.drop_one, List.tail_cons, if_neg hl, hdrop,
      if_neg hr]
    simp
  | bare hc =>
    have hl : leftBracket ∉ host ++ colon :: port := by
      simp [hhost.1, hport.1, show leftBracket ≠ colon by decide]
    have hr : rightBracket ∉ host ++ colon :: port := by
      simp [hhost.2, hport.2, show rightBracket ≠ colon by decide]
    have hhead : (host ++ colon :: port).head? ≠ some leftBracket :=
      fun h => hl (List.mem_of_head? h)
    rw [lastIndexByte_append hcolon]
    dsimp only
    rw [if_neg hhead, List.take_left, if_neg hc, splitRest, List.drop_zero, if_neg hl, if_neg hr]
    simp

end Locache.Net
