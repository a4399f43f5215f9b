import Stencil.Proofs.Expr.Height

/-!
The parser as a descent: one cursor over the tokens, and one counter for the depth, which goes up
on the way down and is put back by hand at the end of each function. Each function is given how
many calls may be nested in it, so that it is a function at all; how many are enough is left open.
-/
namespace Stencil.Expr

/-- A descent under way. The trail holds each depth that its counter was set to, the last first. -/
structure Descent where
  tokens : List Token
  cursor : Nat
  depth : Nat
  trail : List Nat

namespace Descent

/-- A run leaves a descent also where it fails. It comes to nothing if it does not end. -/
abbrev Run := ExceptT ParseError (StateT Descent Option)

def start (tokens : List Token) (cursor depth : Nat) : Descent := ⟨tokens, cursor, depth, []⟩

def rest (s : Descent) : List Token := s.tokens.drop s.cursor

def skipped (s : Descent) : Descent := { s with cursor := s.cursor + 1 }

def turned (s : Descent) (depth : Nat) : Descent := { s with depth, trail := depth :: s.trail }

def levels (s : Descent) : Nat := maxDepth - s.depth

def peek : Run (Option Token) := return (← get).tokens[(← get).cursor]?

def skip : Run Unit := modify skipped

def unexpected {α : Type} : Run α := do throw (stuck (← get).rest)

def refuse {α : Type} : Run α := do
  modify fun s => { s with cursor := s.cursor - 1 }
  unexpected

def next : Run Token := do
  match ← peek with
  | none => throw .unexpectedEnd
  | some t =>
    skip
    return t

def eat (token : Token) : Run Bool := do
  if (← peek) = some token then
    skip
    return true
  else return false

def expect (token : Token) : Run Unit := do
  if ← eat token then return ()
  else unexpected

def depthNow : Run Nat := return (← get).depth

def restore (depth : Nat) : Run Unit := modify (turned · depth)

/-- Goes one level deeper. Where that fails, the counter is past `maxDepth`. -/
def descend : Run Unit := do
  modify fun s => { s with depth := s.depth + 1 }
  if maxDepth < (← depthNow) then throw .tooDeep
  else modify fun s => { s with trail := s.depth :: s.trail }

/-- Comes to nothing, since the calls nest too deep. -/
def unfinished {α : Type} : Run α := fun _ => none

mutual

def conditional : Nat → Run Expr
  | 0 => unfinished
  | n + 1 => do
    let depth ← depthNow
    descend
    let condition ← chain n .or
    let e ← branches n condition
    restore depth
    return e

/-- The condition alone, or with its question. -/
def branches (n : Nat) (condition : Expr) : Run Expr :=
  match n with
  | 0 => unfinished
  | n + 1 => do
    if ← eat .question then
      let yes ← conditional n
      expect .colon
      let no ← conditional n
      return .conditional condition yes no
    else return condition

def chain (n : Nat) (level : Level) : Run Expr :=
  match n with
  | 0 => unfinished
  | n + 1 => do
    let depth ← depthNow
    let left ← operand n level
    links n level depth left

def operand (n : Nat) (level : Level) : Run Expr :=
  match n with
  | 0 => unfinished
  | n + 1 =>
    match level.tighter? with
    | some tighter => chain n tighter
    | none => unary n

/-- The links of a chain that began at the given depth. Each goes deeper, and only the end of the
chain puts the counter back. -/
def links (n : Nat) (level : Level) (depth : Nat) (left : Expr) : Run Expr :=
  match n with
  | 0 => unfinished
  | n + 1 => do
    match (← peek).bind (joined? level) with
    | none =>
      restore depth
      return left
    | some join =>
      skip
      descend
      let right ← operand n level
      links n level depth (join left right)

def unary : Nat → Run Expr
  | 0 => unfinished
  | n + 1 => do
    match (← peek).bind leadingOp? with
    | none => postfixed n
    | some op =>
      skip
      let depth ← depthNow
      descend
      let e ← unary n
      restore depth
      return .unary op e

def postfixed : Nat → Run Expr
  | 0 => unfinished
  | n + 1 => do
    let depth ← depthNow
    let e ← primary n
    accesses n depth e

/-- The accesses behind what began at the given depth. -/
def accesses (n : Nat) (depth : Nat) (target : Expr) : Run Expr :=
  match n with
  | 0 => unfinished
  | n + 1 => do
    if ← eat .dot then
      descend
      match ← next with
      | .ident name => accesses n depth (.member target name)
      | _ => refuse
    else if ← eat .bracketOpen then
      descend
      let position ← conditional n
      expect .bracketClose
      accesses n depth (.index target position)
    else
      restore depth
      return target

def primary : Nat → Run Expr
  | 0 => unfinished
  | n + 1 => do
    match ← next with
    | .parenOpen =>
      let e ← conditional n
      expect .parenClose
      return e
    | .bracketOpen =>
      if ← eat .bracketClose then return .list []
      else
        let es ← items n []
        return .list es
    | t =>
      match leaf? t with
      | some e => return e
      | none => refuse

def items (n : Nat) (before : List Expr) : Run (List Expr) :=
  match n with
  | 0 => unfinished
  | n + 1 => do
    let e ← conditional n
    if ← eat .bracketClose then return before ++ [e]
    else
      expect .comma
      if ← eat .bracketClose then return before ++ [e]
      else items n (before ++ [e])

end

variable {α β : Type} {s t : Descent} {ts : List Token} {token : Token}

/-- The second descent is further along the same tokens. -/
def Along (s t : Descent) : Prop :=
  t.tokens = s.tokens ∧ t.cursor + t.rest.length = s.cursor + s.rest.length

theorem Along.refl (s : Descent) : s.Along s := ⟨rfl, rfl⟩

theorem Along.trans {u : Descent} (h : s.Along t) (h' : t.Along u) : s.Along u :=
  ⟨h'.1.trans h.1, h'.2.trans h.2⟩

theorem rest_skipped (h : s.rest = token :: ts) : s.skipped.rest = ts := by
  have htail : s.rest.tail = s.skipped.rest := by
    simp [rest, skipped]
  rw [← htail, h, List.tail_cons]

theorem along_skipped (h : s.rest = token :: ts) : s.Along s.skipped := by
  refine ⟨rfl, ?_⟩
  rw [rest_skipped h, h, List.length_cons]
  simp only [skipped]
  omega

theorem levels_of_depth_eq {n : Nat} (h : t.depth = s.depth) (hn : s.levels = n) :
    t.levels = n := by
  rw [levels, h, ← levels, hn]

theorem bind_of_ok {m : Run α} {f : α → Run β} {a : α} (h : m s = some (.ok a, t)) :
    (m >>= f) s = f a t := by
  change (m s).bind (fun p => ExceptT.bindCont f p.1 p.2) = _
  rw [h]
  rfl

theorem bind_of_error {m : Run α} {f : α → Run β} {err : ParseError}
    (h : m s = some (.error err, t)) : (m >>= f) s = some (.error err, t) := by
  change (m s).bind (fun p => ExceptT.bindCont f p.1 p.2) = _
  rw [h]
  rfl

/-- With calls enough, a run ends with a result and leaves a descent. -/
def Ends (m : Nat → Run α) (s : Descent) (result : Except ParseError α) (t : Descent) : Prop :=
  ∃ calls, ∀ n, calls ≤ n → m n s = some (result, t)

section

variable {m : Nat → Run α} {f : Nat → α → Run β} {u : Descent}

theorem ends_of_eq {m : Run α} {result : Except ParseError α} (h : m s = some (result, t)) :
    Ends (fun _ => m) s result t := ⟨0, fun _ _ => h⟩

theorem Ends.call {result : Except ParseError α} (h : Ends (fun n => m (n + 1)) s result t) :
    Ends m s result t := by
  obtain ⟨calls, hm⟩ := h
  refine ⟨calls + 1, fun n hn => ?_⟩
  obtain ⟨k, rfl⟩ : ∃ k, n = k + 1 := ⟨n - 1, by omega⟩
  exact hm k (Nat.le_of_succ_le_succ hn)

theorem Ends.bind {a : α} {result : Except ParseError β} (h : Ends m s (.ok a) t)
    (hf : Ends (fun n => f n a) t result u) : Ends (fun n => m n >>= f n) s result u := by
  obtain ⟨calls, hm⟩ := h
  obtain ⟨more, hmore⟩ := hf
  refine ⟨max calls more, fun n hn => ?_⟩
  have hcalls := Nat.le_trans (Nat.le_max_left calls more) hn
  have hn := Nat.le_trans (Nat.le_max_right calls more) hn
  exact (bind_of_ok (hm n hcalls)).trans (hmore n hn)

theorem Ends.bind_error {err : ParseError} (h : Ends m s (.error err) t) :
    Ends (fun n => m n >>= f n) s (.error err) t := by
  obtain ⟨calls, hm⟩ := h
  exact ⟨calls, fun n hn => bind_of_error (hm n hn)⟩

theorem Ends.unique {result result' : Except ParseError α} (h : Ends m s result t)
    (h' : Ends m s result' u) : result = result' ∧ t = u := by
  obtain ⟨calls, hm⟩ := h
  obtain ⟨more, hmore⟩ := h'
  have hsame := hm (max calls more) (Nat.le_max_left calls more)
  rw [hmore (max calls more) (Nat.le_max_right calls more)] at hsame
  simpa [eq_comm] using hsame

end

theorem peek_eq (s : Descent) : peek s = some (.ok s.rest.head?, s) := by
  rw [rest, List.head?_drop]
  rfl

theorem next_of_rest (h : s.rest = token :: ts) : next s = some (.ok token, s.skipped) := by
  refine (bind_of_ok (peek_eq s)).trans ?_
  rw [h]
  rfl

theorem next_of_end (h : s.rest = []) : next s = some (.error .unexpectedEnd, s) := by
  refine (bind_of_ok (peek_eq s)).trans ?_
  rw [h]
  rfl

theorem refuse_of_rest (h : s.rest = token :: ts) :
    (refuse : Run α) s.skipped = some (.error (stuck (token :: ts)), s) := by
  rw [← h]
  rfl

theorem eat_of_rest (h : s.rest = token :: ts) : eat token s = some (.ok true, s.skipped) := by
  refine (bind_of_ok (peek_eq s)).trans ?_
  rw [if_pos (by rw [h, List.head?_cons])]
  rfl

theorem eat_of_head?_ne (h : s.rest.head? ≠ some token) : eat token s = some (.ok false, s) := by
  refine (bind_of_ok (peek_eq s)).trans ?_
  rw [if_neg h]
  rfl

theorem expect_of_rest (h : s.rest = token :: ts) : expect token s = some (.ok (), s.skipped) :=
  (bind_of_ok (eat_of_rest h)).trans rfl

theorem expect_of_head?_ne (h : s.rest.head? ≠ some token) :
    expect token s = some (.error (stuck s.rest), s) :=
  (bind_of_ok (eat_of_head?_ne h)).trans rfl

theorem descend_of_levels_succ {n : Nat} (h : s.levels = n + 1) :
    descend s = some (.ok (), s.turned (s.depth + 1)) := by
  have hle : ¬ maxDepth < s.depth + 1 := by
    simp only [levels] at h
    omega
  change (if maxDepth < s.depth + 1 then _ else _ : Run Unit) _ = _
  rw [if_neg hle]
  rfl

theorem descend_of_levels_zero (h : s.levels = 0) :
    descend s = some (.error .tooDeep, { s with depth := s.depth + 1 }) := by
  have hlt : maxDepth < s.depth + 1 := by
    simp only [levels] at h
    omega
  change (if maxDepth < s.depth + 1 then throw .tooDeep else _ : Run Unit) _ = _
  rw [if_pos hlt]
  rfl

theorem descend_depth_le (h : descend s = some (.ok (), t)) :
    t.depth = s.depth + 1 ∧ t.depth ≤ maxDepth := by
  cases hn : s.levels with
  | zero => simp [descend_of_levels_zero hn] at h
  | succ n =>
    obtain rfl : s.turned (s.depth + 1) = t := by simpa [descend_of_levels_succ hn] using h
    refine ⟨rfl, ?_⟩
    simp only [levels, turned] at hn ⊢
    omega

variable {P : Nat → Prop} {back mid : Nat} {r : Except ParseError (α × List Token)}

/-- Whoever may be at a depth may be one level deeper, as far as the levels go. -/
def Deepens (P : Nat → Prop) : Prop := ∀ depth < maxDepth, P depth → P (depth + 1)

/-- The depths that a descent may have behind the given one. -/
def From (depth d : Nat) : Prop := depth ≤ d ∧ (d = depth ∨ d ≤ maxDepth)

theorem deepens_from (depth : Nat) : Deepens (From depth) :=
  fun _ hd h => ⟨Nat.le_succ_of_le h.1, .inr hd⟩

/-- The depth that a descent has, and each that it was set to, is one of the given ones. -/
structure Within (P : Nat → Prop) (s : Descent) : Prop where
  depth : P s.depth
  trail : ∀ d ∈ s.trail, P d

theorem Within.skipped (hs : s.Within P) : s.skipped.Within P := ⟨hs.depth, hs.trail⟩

theorem Within.turned (hs : s.Within P) {depth : Nat} (h : P depth) :
    (s.turned depth).Within P := by
  refine ⟨h, ?_⟩
  intro d hd
  rcases List.mem_cons.1 hd with rfl | hd
  · exact h
  · exact hs.trail d hd

/-- A run ends and comes to the same as a reading. Its counter was set to none but the given depths
on the way, and where it succeeds it is back where it was said to be. -/
def Follows (P : Nat → Prop) (m : Nat → Run α) (back : Nat) (s : Descent)
    (r : Except ParseError (α × List Token)) : Prop :=
  ∃ result t, Ends m s result t ∧ r = result.map (fun a => (a, t.rest)) ∧
    (∀ d ∈ t.trail, P d) ∧ ∀ a, result = .ok a → s.Along t ∧ t.depth = back ∧ P back

theorem Follows.call {m : Nat → Run α} (h : Follows P (fun n => m (n + 1)) back s r) :
    Follows P m back s r := by
  obtain ⟨result, t, hm, hr⟩ := h
  exact ⟨result, t, hm.call, hr⟩

theorem follows_pure (hs : s.Within P) (a : α) :
    Follows P (fun _ => pure a) s.depth s (.ok (a, s.rest)) :=
  ⟨.ok a, s, ends_of_eq rfl, rfl, hs.trail, fun _ _ => ⟨.refl s, rfl, hs.depth⟩⟩

theorem follows_of_error {m : Nat → Run α} {err : ParseError} (h : Ends m s (.error err) t)
    (ht : ∀ d ∈ t.trail, P d) : Follows P m back s (.error err) :=
  ⟨.error err, t, h, rfl, ht, fun _ ha => by simp at ha⟩

theorem Follows.of_ends {m : Nat → Run α} {f : Nat → α → Run β} {a : α}
    {r : Except ParseError (β × List Token)} (h : Ends m s (.ok a) t) (ha : s.Along t)
    (hf : Follows P (fun n => f n a) back t r) : Follows P (fun n => m n >>= f n) back s r := by
  obtain ⟨result, u, hu, hr, htrail, hok⟩ := hf
  refine ⟨result, u, h.bind hu, hr, htrail, fun b hb => ?_⟩
  obtain ⟨hb, hback⟩ := hok b hb
  exact ⟨ha.trans hb, hback⟩

theorem Follows.of_step {m : Run α} {f : Nat → α → Run β} {a : α}
    {r : Except ParseError (β × List Token)} (h : m s = some (.ok a, t)) (ha : s.Along t)
    (hf : Follows P (fun n => f n a) back t r) : Follows P (fun n => m >>= f n) back s r :=
  .of_ends (ends_of_eq h) ha hf

theorem Follows.bind {m : Nat → Run α} {f : Nat → α → Run β}
    {g : α × List Token → Except ParseError (β × List Token)} (h : Follows P m mid s r)
    (hf : ∀ a t, r = .ok (a, t.rest) → t.depth = mid → t.Within P →
      Follows P (fun n => f n a) back t (g (a, t.rest))) :
    Follows P (fun n => m n >>= f n) back s (r >>= g) := by
  obtain ⟨result, t, hm, rfl, htrail, hok⟩ := h
  cases result with
  | error err => exact follows_of_error hm.bind_error htrail
  | ok a =>
    obtain ⟨ha, rfl, hmid⟩ := hok a rfl
    exact .of_ends hm ha (hf a t rfl rfl ⟨hmid, htrail⟩)

section

variable {m m' : Nat → Run α} {f : Nat → Unit → Run α}

theorem Follows.of_eat (h : s.rest = token :: ts) (hf : Follows P m back s.skipped r) :
    Follows P (fun n => do if ← eat token then m n else m' n) back s r :=
  .of_step (eat_of_rest h) (along_skipped h) hf

theorem Follows.of_not_eat (h : s.rest.head? ≠ some token) (hf : Follows P m' back s r) :
    Follows P (fun n => do if ← eat token then m n else m' n) back s r :=
  .of_step (eat_of_head?_ne h) (.refl s) hf

theorem follows_restore (hs : s.Within P) (h : P back) (a : α) :
    Follows P (fun _ => do restore back; return a) back s (.ok (a, s.rest)) := by
  have hstep : restore back s = some (.ok (), s.turned back) := rfl
  exact .of_step hstep ⟨rfl, rfl⟩ (follows_pure (hs.turned h) a)

theorem Follows.restored (h : Follows P m mid s r) (hP : P back) :
    Follows P (fun n => do let a ← m n; restore back; return a) back s r := by
  have hbind : Follows P (fun n => m n >>= fun a => do restore back; return a) back s
      (r >>= pure) := h.bind fun a t _ _ ht => follows_restore ht hP a
  rwa [bind_pure] at hbind

theorem follows_descend (hP : Deepens P) {r : Nat → Except ParseError (α × List Token)} {l : Nat}
    (hl : s.levels = l) (hs : s.Within P)
    (hf : ∀ k t, l = k + 1 → t.levels = k → t.rest = s.rest → t.Within P →
      Follows P (fun n => f n ()) back t (r k)) :
    Follows P (fun n => descend >>= f n) back s
      (match l with
        | 0 => .error .tooDeep
        | k + 1 => r k) := by
  cases l with
  | zero =>
    exact follows_of_error (ends_of_eq (descend_of_levels_zero hl)).bind_error hs.trail
  | succ k =>
    have hlt : s.depth < maxDepth := by
      simp only [levels] at hl
      omega
    have hlevels : (s.turned (s.depth + 1)).levels = k := by
      simp only [levels, Descent.turned] at hl ⊢
      omega
    have hdeeper : (s.turned (s.depth + 1)).Within P := hs.turned (hP s.depth hlt hs.depth)
    exact .of_step (descend_of_levels_succ hl) ⟨rfl, rfl⟩ (hf k _ rfl hlevels rfl hdeeper)

theorem follows_expect_of_head?_ne (hr : s.rest = ts) (h : ts.head? ≠ some token)
    (hs : s.Within P) :
    Follows P (fun n => expect token >>= f n) back s (.error (stuck ts)) := by
  subst hr
  exact follows_of_error (ends_of_eq (expect_of_head?_ne h)).bind_error hs.trail

theorem follows_expect {g : List Token → Except ParseError (α × List Token)} (hs : s.Within P)
    (hf : ∀ t, t.depth = s.depth → t.Within P →
      Follows P (fun n => f n ()) back t (g t.rest)) :
    Follows P (fun n => expect token >>= f n) back s (Expr.expect token s.rest >>= g) := by
  by_cases h : s.rest.head? = some token
  · obtain ⟨us, hus⟩ := List.head?_eq_some_iff.1 h
    have hread : Expr.expect token s.rest = .ok us := expect_eq_ok_iff.2 hus
    rw [hread, ← rest_skipped hus]
    exact .of_step (expect_of_rest hus) (along_skipped hus) (hf s.skipped rfl hs.skipped)
  · have hread : Expr.expect token s.rest = .error (stuck s.rest) := by
      cases hr : s.rest with
      | nil => rfl
      | cons u us =>
        rw [Expr.expect, if_neg]
        rintro rfl
        exact h (by rw [hr, List.head?_cons])
    rw [hread]
    exact follows_expect_of_head?_ne rfl h hs

end

end Descent
end Stencil.Expr
