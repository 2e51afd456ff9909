import RnsIcn.Server.Core

/-! # What the handlers send

A packet is handed to the faces that are there. The loops over faces end with the
packet logged once for each of them.
-/

namespace RnsIcn

open Effect

namespace Server

variable {s : Server} {face : FaceId} {faces : List FaceId} {p : Packet} {d : Data} {raw : Bytes}

/-- The state after `p` was handed in turn to those of `faces` that are there. -/
def sendAll (s : Server) (p : Packet) (faces : List FaceId) : Server :=
  { s with sent := ((faces.filter (· ∈ s.faces)).map (·, p)).reverse ++ s.sent }

@[simp] theorem sendAll_nil (s : Server) (p : Packet) : s.sendAll p [] = s := rfl

theorem sendAll_cons (s : Server) (p : Packet) (face : FaceId) (faces : List FaceId) :
    s.sendAll p (face :: faces) = (s.sendAll p [face]).sendAll p faces := by
  by_cases h : face ∈ s.faces <;> simp [sendAll, h]

theorem sendAll_sent (s : Server) (p : Packet) (faces : List FaceId) :
    (s.sendAll p faces).sent = ((faces.filter (· ∈ s.faces)).reverse).map (·, p) ++ s.sent := by
  simp [sendAll]

theorem exec_send (hp : p.toBytes = .ok raw) :
    exec (send face p) s = (.ok (), s.sendAll p [face]) := by
  by_cases h : face ∈ s.faces <;> simp [send, exec_bind, h, hp, sendAll]

theorem exec_forM_send (hp : p.toBytes = .ok raw) :
    exec (faces.forM fun face => send face p) s = (.ok (), s.sendAll p faces) := by
  induction faces generalizing s with
  | nil => rfl
  | cons face faces ih =>
    rw [s.sendAll_cons p face faces, exec_forM_cons, exec_send hp]
    exact ih

theorem exec_trySend {otherwise : Handler Unit} (hd : d.toBytes = .ok raw) :
    exec (trySend face d otherwise) s = (.ok (), s.sendAll (.data d) [face]) := by
  rw [trySend, exec_tryCatch, exec_send (p := .data d) hd]

theorem exec_forM_trySend (hd : d.toBytes = .ok raw) :
    exec (faces.forM fun face => trySend face d) s = (.ok (), s.sendAll (.data d) faces) := by
  induction faces generalizing s with
  | nil => rfl
  | cons face faces ih =>
    rw [s.sendAll_cons _ face faces, exec_forM_cons, exec_trySend hd]
    exact ih

def propagationFaces (s : Server) (excludeFace : Option FaceId) : List FaceId :=
  s.peers.keys.filter fun face => some face != excludeFace

theorem exec_propagate {excludeFace : Option FaceId} (hd : d.toBytes = .ok raw) :
    exec (propagate d excludeFace) s =
      (.ok (), s.sendAll (.data d) (s.propagationFaces excludeFace)) := by
  rw [propagate, exec_bind]
  exact exec_forM_trySend hd

theorem sendAll_sent_eq : (s.sendAll p faces).sent = s.sent ↔ ∀ face ∈ faces, face ∉ s.faces := by
  simp [sendAll]

variable [Hashlib]

theorem exec_receiveData (d : Data) (face : FaceId) (cacheUnsolicited : Bool) :
    exec (receiveData d face cacheUnsolicited) s =
      (s.forwarder.receiveOutcome d cacheUnsolicited,
        { s with forwarder := s.forwarder.receiveData d face cacheUnsolicited }) := by
  simp [receiveData, exec_bind]

theorem exec_csInsert (n : Name) (d : Data) :
    exec (csInsert n d) s = (discard (s.forwarder.cs.insert n d s.forwarder.time),
      { s with forwarder :=
          { s.forwarder with cs := s.forwarder.cs.apply (.insert n d s.forwarder.time) } }) := by
  simp [csInsert, onStore, exec_bind]

end Server

end RnsIcn
