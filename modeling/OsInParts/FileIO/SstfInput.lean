import OsInParts.FileIO.Sstf
import OsInParts.Lib.Scan

/-!
# SstfInput — the disk simulation as a program

`main` of `Hard Disk and File IO/q2.c`, which reads the number of requests and the sector
of each, with what it prints left out but for the results of the simulation. A number
that is missing leaves a variable unwritten, and without a request there may be no memory
to go on with.
-/

namespace OsInParts.Disk

open Lib.Scan

/-- The requests that have been read, and what becomes of them. -/
structure Simulation where
  n : ℕ
  requests : Fin n → DiskRequest
  result : Sstf n

def main (stdin : List UInt8) : Option Simulation := do
  let (numRequests, text) ← scanNew stdin
  if 0 < numRequests then
    let (sectors, _) ← scanInts numRequests.toNat text
    let requests (i : Fin numRequests.toNat) : DiskRequest := ⟨Int32.ofInt (sectors.getD i 0)⟩
    let result ← simulateSstf requests
    some { n := numRequests.toNat, requests := requests, result := result }
  else none

variable {sectors : List Int32} {stdin rest : List UInt8}

/-- The requests for a list of sectors. -/
def requestsFor (sectors : List Int32) (i : Fin sectors.length) : DiskRequest := ⟨sectors.get i⟩

/-- The numbers that are typed for them. -/
def numbers (sectors : List Int32) : List ℤ := sectors.length :: sectors.map Int32.toInt

/-- **The requests are read back.** -/
theorem main_numbers (hne : sectors ≠ []) (htyped : Ints (numbers sectors) stdin rest)
    {s : Sstf sectors.length} (hs : simulateSstf (requestsFor sectors) = some s) :
    main stdin = some { n := sectors.length, requests := requestsFor sectors, result := s } := by
  obtain ⟨text, hcount, hsectors⟩ := htyped.scanNew
  have hread := hsectors.scanInts
  rw [List.length_map] at hread
  have hpositive : (0 : ℤ) < sectors.length := by
    exact_mod_cast List.length_pos_of_ne_nil hne
  have hrequests : (fun i : Fin sectors.length =>
      (⟨Int32.ofInt ((sectors.map Int32.toInt).getD i 0)⟩ : DiskRequest))
        = requestsFor sectors := by
    funext i
    simp [requestsFor]
  simp only [main, hcount, Option.bind_eq_bind, Option.bind_some, if_pos hpositive,
    Int.toNat_natCast, hread, hrequests, hs]

/-- **The program against the best order**: whatever sectors are typed in, and in
whatever way, all requests are served, and the head moves at most twice as far as in any
other order. -/
theorem main_twice_optimal (hne : sectors ≠ []) (htyped : Ints (numbers sectors) stdin rest) :
    ∃ s, main stdin
        = some { n := sectors.length, requests := requestsFor sectors, result := s } ∧
      s.served.Perm (List.finRange sectors.length) ∧
      s.totalSeekTime = tracksMoved (requestsFor sectors) s.served * seekTimePerTrack ∧
      ∀ order, order.Perm (List.finRange sectors.length) →
        tracksMoved (requestsFor sectors) s.served
          ≤ 2 * tracksMoved (requestsFor sectors) order := by
  obtain ⟨s, hs, hperm, hseek, hbest⟩ := sstf_twice_optimal (requestsFor sectors)
  exact ⟨s, main_numbers hne htyped hs, hperm, hseek, hbest⟩

/-- Sector 50 and sector 450. -/
def nearAndFar : List Int32 := [50, 450]

theorem main_twice_optimal_nearAndFar :
    ∃ s, main (writeInts (numbers nearAndFar) ++ [])
        = some { n := nearAndFar.length, requests := requestsFor nearAndFar, result := s } ∧
      s.served.Perm (List.finRange nearAndFar.length) ∧
      s.totalSeekTime = tracksMoved (requestsFor nearAndFar) s.served * seekTimePerTrack ∧
      ∀ order, order.Perm (List.finRange nearAndFar.length) →
        tracksMoved (requestsFor nearAndFar) s.served
          ≤ 2 * tracksMoved (requestsFor nearAndFar) order :=
  main_twice_optimal (by decide)
    (ints_writeInts (by simp [numbers, nearAndFar, InInt]) fun c hc => by cases hc)

end OsInParts.Disk
