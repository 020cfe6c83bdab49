import ExtensionLowering.Lowering.File
/-!
# Pins between registering and placing

The pins that a scope registers are the ones it places: the map they wait in gives them back as they
were. What blocks, Do bodies and files do is therefore said without the map.
-/
namespace ExtensionLowering

namespace Hoists

variable (hs : Hoists) {scope other : Scope}

theorem pins_delete_of_ne (h : other ≠ scope) : (hs.delete scope).pins other = hs.pins other := by
  induction hs with
  | nil => rfl
  | cons p hs ih => grind [delete, pins]

theorem pins_delete : (hs.delete scope).pins scope = [] := by
  induction hs with
  | nil => rfl
  | cons p hs ih => grind [delete, pins]

theorem delete_delete : (hs.delete scope).delete scope = hs.delete scope := by
  simp [delete]

end Hoists

namespace Lower

variable (env : Env)

theorem registerHoists_run (scope : Scope) (unique : List DeclId) :
    (registerHoists env scope unique).run [] =
      registerPins env unique >>= fun pins => pure ((), [(scope, pins)]) := by
  simp [registerHoists, Hoists.pins, Hoists.delete]

theorem takeHoists_run (scope : Scope) (pins : List Pin) :
    (takeHoists scope).run [(scope, pins)] = (pure (pins, []) : Lower _) := by
  simp [takeHoists, Hoists.pins, Hoists.delete]

theorem block_mk (token : Token) (unique : List DeclId) (ss : List Stmt) :
    block env (.mk token unique ss) = do
      let pins ← registerPins env unique
      let ss ← stmts env ss
      return .mk token unique (← insertPins pins ss) := by
  simp [block, registerHoists_run, insertHoists, takeHoists_run]

theorem doBlock_mk (map flatMap : Signature) (token : Token) (unique : List DeclId)
    (ss : List Stmt) :
    doBlock env map flatMap (.mk token unique ss) = do
      let pins ← registerPins env unique
      if Pin.blocked pins ss then giveUp
      let (body, rest, _) ← chain env map flatMap pins ss
      return bodyValue (rest.map Pin.stmt ++ body) := by
  simp [doBlock, registerHoists_run, takeHoists_run]

theorem file_eq (f : File) :
    file env f =
      registerPins env f.unique >>= fun pins => stmts env f.stmts >>= placePins pins := by
  simp [file, registerHoists_run, placeHoists, takeHoists_run]

end Lower

end ExtensionLowering
