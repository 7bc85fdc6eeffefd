import Microcomputer.Engine

/-!
# Runs by recursion

A second account of running a stream: a nested stream is a run of its own, inside the run that began
it. Fuel bounds the recursion, and `none` says only that there was too little of it.
-/
namespace Microcomputer

/-- Runs a stream from `offset` on, and answers how it ended. -/
def Code.run : Nat → Code → (offset depth : Nat) → Session → Option (Except Failure Unit × Session)
  | 0, _, _, _, _ => none
  | fuel + 1, code, offset, depth, session =>
    if offset < code.size then
      match code.executeAt offset depth session with
      | .ok (.goto next) session => run fuel code next depth session
      | .ok (.call start length resume) session =>
        match run fuel (.ram start length) 0 (depth + 1) session with
        | some (.ok (), session) => run fuel code resume depth session
        | ended => ended
      | .ok .leave session => some (.ok (), session.note (.halted depth offset))
      | .error fault session =>
        let failure := ⟨fault, offset, depth⟩
        some (.error failure, session.note (.failed failure))
    else
      some (.ok (), session.note (.exhausted depth code.size))

theorem Code.run_succ {fuel : Nat} {code : Code} {offset depth : Nat} {session : Session}
    {ended : Except Failure Unit × Session} (h : code.run fuel offset depth session = some ended) :
    code.run (fuel + 1) offset depth session = some ended := by
  induction fuel generalizing code offset depth session ended with
  | zero => simp [run] at h
  | succ fuel ih =>
    rw [run] at h ⊢
    by_cases hs : offset < code.size
    · simp only [hs, ↓reduceIte] at h ⊢
      cases hx : code.executeAt offset depth session with
      | error fault after => simpa [hx] using h
      | ok transfer after =>
        cases transfer with
        | leave => simpa [hx] using h
        | goto next =>
          simp only [hx] at h ⊢
          exact ih h
        | call start length resume =>
          simp only [hx] at h ⊢
          cases hn : run fuel (.ram start length) 0 (depth + 1) after with
          | none => simp [hn] at h
          | some inner =>
            rw [ih hn]
            rw [hn] at h
            match inner with
            | (.ok (), _) => exact ih h
            | (.error _, _) => exact h
    · simpa [hs] using h

theorem Code.run_mono {fuel more : Nat} (le : fuel ≤ more) {code : Code} {offset depth : Nat}
    {session : Session} {ended : Except Failure Unit × Session}
    (h : code.run fuel offset depth session = some ended) :
    code.run more offset depth session = some ended := by
  induction le with
  | refl => exact h
  | step _ ih => exact run_succ ih

end Microcomputer
