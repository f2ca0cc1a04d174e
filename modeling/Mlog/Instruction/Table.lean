import Mlog.Instruction.Overload

/-!
# The instruction set

Every overload of every instruction, as data.  The order matters in one way only: among the
overloads of one mnemonic, the first that takes a line is the one it means.  A shorter form that
leaves operands out stands behind the full form it is short for.
-/
set_option autoImplicit false

namespace Mlog.Instruction

/-- Memory cells. -/
def memory : List Overload := [
  { mnemonic := "read", params := [.out "output" .any, .val "cell" .building, .val "index" .number],
    description := "Reads a number from a memory cell." },
  { mnemonic := "write", params := [.val "value" .any, .val "cell" .building, .val "index" .number],
    description := "Writes a value to a memory cell." }]

/-- The display. -/
def drawing : List Overload := [
  { mnemonic := "draw", params := [.word "clear", .val "r" .number, .val "g" .number,
      .val "b" .number],
    description := "Clears the display buffer." },
  { mnemonic := "draw", params := [.word "color", .val "r" .number, .val "g" .number,
      .val "b" .number, .opt "a" .number],
    description := "Sets the draw color." },
  { mnemonic := "draw", params := [.word "col", .val "color" .number],
    description := "Sets the draw color from a packed color." },
  { mnemonic := "draw", params := [.word "stroke", .val "width" .number],
    description := "Sets the line width." },
  { mnemonic := "draw", params := [.word "line", .val "x1" .number, .val "y1" .number,
      .val "x2" .number, .val "y2" .number],
    description := "Draws a line." },
  { mnemonic := "draw", params := [.word "rect", .val "x" .number, .val "y" .number,
      .val "width" .number, .val "height" .number],
    description := "Draws a filled rectangle." },
  { mnemonic := "draw", params := [.word "lineRect", .val "x" .number, .val "y" .number,
      .val "width" .number, .val "height" .number],
    description := "Draws a rectangle outline." },
  { mnemonic := "draw", params := [.word "poly", .val "x" .number, .val "y" .number,
      .val "sides" .number, .val "radius" .number, .val "rotation" .number],
    description := "Draws a filled polygon." },
  { mnemonic := "draw", params := [.word "linePoly", .val "x" .number, .val "y" .number,
      .val "sides" .number, .val "radius" .number, .val "rotation" .number],
    description := "Draws a polygon outline." },
  { mnemonic := "draw", params := [.word "triangle", .val "x1" .number, .val "y1" .number,
      .val "x2" .number, .val "y2" .number, .val "x3" .number, .val "y3" .number],
    description := "Draws a filled triangle." },
  { mnemonic := "draw", params := [.word "image", .val "x" .number, .val "y" .number,
      .val "image" .contentType, .val "size" .number, .opt "rotation" .number],
    description := "Draws a content icon." }]

/-- Text, buffers and links. -/
def text : List Overload := [
  { mnemonic := "print", params := [.val "message" .any],
    description := "Appends a value to the text buffer." },
  { mnemonic := "print", params := [.rest "messages" .any],
    description := "Appends each value to the text buffer.", expansion := .eachOperand },
  { mnemonic := "drawflush", params := [.val "display" .building],
    description := "Flushes the draw buffer to a display." },
  { mnemonic := "printflush", params := [.val "messageblock" .building],
    description := "Flushes the text buffer to a message block." },
  { mnemonic := "getlink", params := [.out "output" .building, .val "index" .number],
    description := "Gets a linked building by index." }]

/-- Buildings: control, radar and sensors. -/
def buildings : List Overload := [
  { mnemonic := "control", params := [.word "enabled", .val "building" .building,
      .val "enabled" .boolean],
    description := "Enables or disables a building." },
  { mnemonic := "control", params := [.word "shoot", .val "building" .building, .val "x" .number,
      .val "y" .number, .val "shoot" .boolean],
    description := "Aims a turret at a position." },
  { mnemonic := "control", params := [.word "shootp", .val "building" .building, .val "unit" .unit,
      .val "shoot" .boolean],
    description := "Aims a turret at a unit." },
  { mnemonic := "control", params := [.word "config", .val "building" .building, .val "value" .any],
    description := "Configures a building." },
  { mnemonic := "control", params := [.word "color", .val "building" .building,
      .val "color" .number],
    description := "Sets an illuminator's color." },
  { mnemonic := "radar", params := [.val "target1" .targetClass, .val "target2" .targetClass,
      .val "target3" .targetClass, .val "sort" .unitSortCriteria, .val "turret" .building,
      .val "order" .number, .out "output" .unit],
    description := "Finds units near a building." },
  { mnemonic := "sensor", params := [.out "output" .any, .val "building" .building,
      .val "property" .senseable],
    description := "Reads a property of a building.", writes := .sensed 0 2 },
  { mnemonic := "sensor", params := [.out "output" .any, .val "unit" .unit,
      .val "property" .senseable],
    description := "Reads a property of a unit.", writes := .sensed 0 2 },
  { mnemonic := "sensor", params := [.out "output" .any, .val "target" .senseShorthand],
    description := "Reads target.property.", expansion := .shorthand, writes := .sensed 0 1 }]

/-- Variables and arithmetic. -/
def values : List Overload := [
  { mnemonic := "set", params := [.out "variable" .any, .val "value" .any],
    description := "Sets a variable.", writes := .assigned 0 1 },
  { mnemonic := "set", params := [.word "@counter", .val "value" .number],
    description := "Jumps to an instruction address." },
  { mnemonic := "op", params := [.val "operation" .operandTriple, .out "output" .number,
      .val "a" .number, .val "b" .number],
    description := "Performs a binary operation." },
  { mnemonic := "op", params := [.val "operation" .operandDouble, .out "output" .number,
      .val "a" .number],
    description := "Performs a unary operation." },
  { mnemonic := "op", params := [.val "operation" .operandTriple, .out "variable" .number,
      .val "value" .number],
    description := "Applies a binary operation in place.",
    expansion := .template [[.word "op", .operand 1, .operand 2, .operand 2, .operand 3]] },
  { mnemonic := "op", params := [.val "operation" .operandDouble, .out "variable" .number],
    description := "Applies a unary operation in place.",
    expansion := .template [[.word "op", .operand 1, .operand 2, .operand 2]] },
  { mnemonic := "lookup", params := [.word "block", .out "output" .blockType, .val "index" .number],
    description := "Looks up a block by index." },
  { mnemonic := "lookup", params := [.word "unit", .out "output" .unitType, .val "index" .number],
    description := "Looks up a unit type by index." },
  { mnemonic := "lookup", params := [.word "item", .out "output" .itemType, .val "index" .number],
    description := "Looks up an item by index." },
  { mnemonic := "lookup", params := [.word "liquid", .out "output" .liquidType,
      .val "index" .number],
    description := "Looks up a liquid by index." },
  { mnemonic := "packcolor", params := [.out "output" .number, .val "r" .number, .val "g" .number,
      .val "b" .number, .val "a" .number],
    description := "Packs a color into a number." }]

/-- The order of execution. -/
def flow : List Overload := [
  { mnemonic := "wait", params := [.val "seconds" .number],
    description := "Waits for a number of seconds." },
  { mnemonic := "stop", params := [],
    description := "Halts the processor." },
  { mnemonic := "end", params := [],
    description := "Jumps back to the first instruction." },
  { mnemonic := "jump", params := [.val "target" .jumpAddress, .val "condition" .operandTest,
      .val "a" .any, .val "b" .any],
    description := "Jumps if the condition holds." },
  { mnemonic := "jump", params := [.val "target" .jumpAddress, .word "always"],
    description := "Jumps unconditionally.",
    expansion := .template [[.word "jump", .operand 1, .word "always", .word "0", .word "0"]] }]

/-- Units. -/
def units : List Overload := [
  { mnemonic := "ubind", params := [.val "type" .unitType],
    description := "Binds the next unit of a type." },
  { mnemonic := "ucontrol", params := [.word "idle"],
    description := "Makes the bound unit idle." },
  { mnemonic := "ucontrol", params := [.word "stop"],
    description := "Stops the bound unit." },
  { mnemonic := "ucontrol", params := [.word "move", .val "x" .number, .val "y" .number],
    description := "Moves the bound unit." },
  { mnemonic := "ucontrol", params := [.word "approach", .val "x" .number, .val "y" .number,
      .val "radius" .number],
    description := "Moves the bound unit near a position." },
  { mnemonic := "ucontrol", params := [.word "pathfind", .val "x" .number, .val "y" .number],
    description := "Pathfinds the bound unit to a position." },
  { mnemonic := "ucontrol", params := [.word "autoPathfind"],
    description := "Pathfinds the bound unit to the enemy spawn." },
  { mnemonic := "ucontrol", params := [.word "boost", .val "enable" .boolean],
    description := "Starts or stops boosting." },
  { mnemonic := "ucontrol", params := [.word "target", .val "x" .number, .val "y" .number,
      .val "shoot" .boolean],
    description := "Shoots at a position." },
  { mnemonic := "ucontrol", params := [.word "targetp", .val "unit" .unit, .val "shoot" .boolean],
    description := "Shoots at a unit." },
  { mnemonic := "ucontrol", params := [.word "itemDrop", .val "building" .building,
      .val "amount" .number],
    description := "Drops items into a building." },
  { mnemonic := "ucontrol", params := [.word "itemTake", .val "building" .building,
      .val "item" .itemType, .val "amount" .number],
    description := "Takes items from a building." },
  { mnemonic := "ucontrol", params := [.word "payDrop"],
    description := "Drops the carried payload." },
  { mnemonic := "ucontrol", params := [.word "payTake", .val "takeUnits" .boolean],
    description := "Picks up a payload." },
  { mnemonic := "ucontrol", params := [.word "payEnter"],
    description := "Enters the payload block below." },
  { mnemonic := "ucontrol", params := [.word "mine", .val "x" .number, .val "y" .number],
    description := "Mines an ore tile." },
  { mnemonic := "ucontrol", params := [.word "flag", .val "value" .number],
    description := "Sets the bound unit's flag." },
  { mnemonic := "ucontrol", params := [.word "build", .val "x" .number, .val "y" .number,
      .val "block" .blockType, .val "rotation" .number, .val "config" .any],
    description := "Builds a block." },
  { mnemonic := "ucontrol", params := [.word "getBlock", .val "x" .number, .val "y" .number,
      .out "type" .blockType, .out "building" .building, .out "floor" .blockType],
    description := "Reads the block at a position." },
  { mnemonic := "ucontrol", params := [.word "within", .val "x" .number, .val "y" .number,
      .val "radius" .number, .out "result" .boolean],
    description := "Checks if the bound unit is near a position." },
  { mnemonic := "ucontrol", params := [.word "unbind"],
    description := "Returns the bound unit to its normal AI." },
  { mnemonic := "uradar", params := [.val "target1" .targetClass, .val "target2" .targetClass,
      .val "target3" .targetClass, .val "sort" .unitSortCriteria, .val "unused" .number,
      .val "order" .number, .out "output" .unit],
    description := "Finds units near the bound unit." },
  { mnemonic := "uradar", params := [.val "target1" .targetClass, .val "target2" .targetClass,
      .val "target3" .targetClass, .val "sort" .unitSortCriteria, .val "order" .number,
      .out "output" .unit],
    description := "Finds units near the bound unit.",
    expansion := .template [[.word "uradar", .operand 1, .operand 2, .operand 3, .operand 4,
      .word "0", .operand 5, .operand 6]] },
  { mnemonic := "ulocate", params := [.word "ore", .val "group" .buildingGroup,
      .val "enemy" .boolean, .val "ore" .itemType, .out "outX" .number, .out "outY" .number,
      .out "found" .boolean, .out "building" .building],
    description := "Locates an ore." },
  { mnemonic := "ulocate", params := [.word "building", .val "group" .buildingGroup,
      .val "enemy" .boolean, .val "ore" .itemType, .out "outX" .number, .out "outY" .number,
      .out "found" .boolean, .out "building" .building],
    description := "Locates a building." },
  { mnemonic := "ulocate", params := [.word "spawn", .val "group" .buildingGroup,
      .val "enemy" .boolean, .val "ore" .itemType, .out "outX" .number, .out "outY" .number,
      .out "found" .boolean, .out "building" .building],
    description := "Locates an enemy spawn." },
  { mnemonic := "ulocate", params := [.word "damaged", .val "group" .buildingGroup,
      .val "enemy" .boolean, .val "ore" .itemType, .out "outX" .number, .out "outY" .number,
      .out "found" .boolean, .out "building" .building],
    description := "Locates a damaged building." },
  { mnemonic := "ulocate", params := [.word "ore", .val "ore" .itemType, .out "outX" .number,
      .out "outY" .number, .out "found" .boolean],
    description := "Locates an ore.",
    expansion := .template [[.word "ulocate", .word "ore", .word "core", .word "true", .operand 2,
      .operand 3, .operand 4, .operand 5, .word "_"]] },
  { mnemonic := "ulocate", params := [.word "building", .val "group" .buildingGroup,
      .val "enemy" .boolean, .out "outX" .number, .out "outY" .number, .out "found" .boolean,
      .out "building" .building],
    description := "Locates a building.",
    expansion := .template [[.word "ulocate", .word "building", .operand 2, .operand 3,
      .word "@copper", .operand 4, .operand 5, .operand 6, .operand 7]] },
  { mnemonic := "ulocate", params := [.word "spawn", .out "outX" .number, .out "outY" .number,
      .out "found" .boolean, .out "building" .building],
    description := "Locates an enemy spawn.",
    expansion := .template [[.word "ulocate", .word "spawn", .word "core", .word "true",
      .word "@copper", .operand 2, .operand 3, .operand 4, .operand 5]] },
  { mnemonic := "ulocate", params := [.word "damaged", .out "outX" .number, .out "outY" .number,
      .out "found" .boolean, .out "building" .building],
    description := "Locates a damaged building.",
    expansion := .template [[.word "ulocate", .word "damaged", .word "core", .word "true",
      .word "@copper", .operand 2, .operand 3, .operand 4, .operand 5]] }]

/-- What only a world processor runs. -/
def world : List Overload := [
  { mnemonic := "getblock", params := [.word "floor", .out "output" .blockType, .val "x" .number,
      .val "y" .number],
    description := "Reads the floor at a position.", worldOnly := true },
  { mnemonic := "getblock", params := [.word "ore", .out "output" .blockType, .val "x" .number,
      .val "y" .number],
    description := "Reads the ore at a position.", worldOnly := true },
  { mnemonic := "getblock", params := [.word "block", .out "output" .blockType, .val "x" .number,
      .val "y" .number],
    description := "Reads the block at a position.", worldOnly := true },
  { mnemonic := "getblock", params := [.word "building", .out "output" .building, .val "x" .number,
      .val "y" .number],
    description := "Reads the building at a position.", worldOnly := true },
  { mnemonic := "setblock", params := [.word "floor", .val "block" .blockType, .val "x" .number,
      .val "y" .number],
    description := "Sets the floor at a position.", worldOnly := true },
  { mnemonic := "setblock", params := [.word "ore", .val "block" .blockType, .val "x" .number,
      .val "y" .number],
    description := "Sets the ore at a position.", worldOnly := true },
  { mnemonic := "setblock", params := [.word "block", .val "block" .blockType, .val "x" .number,
      .val "y" .number, .val "team" .team, .val "rotation" .number],
    description := "Places a block at a position.", worldOnly := true },
  { mnemonic := "spawn", params := [.val "type" .unitType, .val "x" .number, .val "y" .number,
      .val "rotation" .number, .val "team" .team, .out "output" .unit],
    description := "Spawns a unit.", worldOnly := true },
  { mnemonic := "status", params := [.word "false", .val "effect" .any, .val "unit" .unit,
      .val "duration" .number],
    description := "Applies a status effect to a unit.", worldOnly := true },
  { mnemonic := "status", params := [.word "true", .val "effect" .any, .val "unit" .unit],
    description := "Clears a status effect from a unit.", worldOnly := true },
  { mnemonic := "spawnwave", params := [.val "x" .number, .val "y" .number,
      .val "natural" .boolean],
    description := "Spawns a wave.", worldOnly := true },
  { mnemonic := "setrule", params := [.val "rule" .ruleName, .val "value" .number],
    description := "Sets a game rule.", worldOnly := true },
  { mnemonic := "message", params := [.word "notify"],
    description := "Shows the text buffer as a notification.", worldOnly := true },
  { mnemonic := "message", params := [.word "announce", .val "duration" .number],
    description := "Shows the text buffer as an announcement.", worldOnly := true },
  { mnemonic := "message", params := [.word "toast", .val "duration" .number],
    description := "Shows the text buffer as a toast.", worldOnly := true },
  { mnemonic := "message", params := [.word "mission"],
    description := "Shows the text buffer as the mission.", worldOnly := true },
  { mnemonic := "cutscene", params := [.word "pan", .val "x" .number, .val "y" .number,
      .val "speed" .number],
    description := "Pans the camera.", worldOnly := true },
  { mnemonic := "cutscene", params := [.word "zoom", .val "level" .number],
    description := "Zooms the camera.", worldOnly := true },
  { mnemonic := "cutscene", params := [.word "stop"],
    description := "Returns camera control to the player.", worldOnly := true },
  { mnemonic := "explosion", params := [.val "team" .team, .val "x" .number, .val "y" .number,
      .val "radius" .number, .val "damage" .number, .val "air" .boolean, .val "ground" .boolean,
      .val "pierce" .boolean],
    description := "Creates an explosion.", worldOnly := true },
  { mnemonic := "setrate", params := [.val "ipt" .number],
    description := "Sets the instructions per tick.", worldOnly := true },
  { mnemonic := "getflag", params := [.out "output" .boolean, .val "flag" .string],
    description := "Reads a global flag.", worldOnly := true },
  { mnemonic := "setflag", params := [.val "flag" .string, .val "value" .boolean],
    description := "Sets a global flag.", worldOnly := true }]

/-- Instructions of the extended dialect, each short for base instructions. -/
def extended : List Overload := [
  { mnemonic := "call", params := [.val "function" .jumpAddress],
    description := "Calls a function, storing the return address in _stack1.",
    expansion := .template [[.word "op", .word "add", .word "_stack1", .word "@counter",
      .word "1"], [.word "jump", .operand 1, .word "always", .word "0", .word "0"]] },
  { mnemonic := "return", params := [],
    description := "Returns to the address in _stack1.",
    expansion := .template [[.word "set", .word "@counter", .word "_stack1"]] },
  { mnemonic := "increment", params := [.out "variable" .number, .val "amount" .number],
    description := "Adds to a variable.",
    expansion := .template [[.word "op", .word "add", .operand 1, .operand 1, .operand 2]] },
  { mnemonic := "increment", params := [.out "variable" .number],
    description := "Adds 1 to a variable.",
    expansion := .template [[.word "op", .word "add", .operand 1, .operand 1, .word "1"]] },
  { mnemonic := "decrement", params := [.out "variable" .number, .val "amount" .number],
    description := "Subtracts from a variable.",
    expansion := .template [[.word "op", .word "sub", .operand 1, .operand 1, .operand 2]] },
  { mnemonic := "decrement", params := [.out "variable" .number],
    description := "Subtracts 1 from a variable.",
    expansion := .template [[.word "op", .word "sub", .operand 1, .operand 1, .word "1"]] },
  { mnemonic := "uflag", params := [.val "flag" .number],
    description := "Sets the bound unit's flag.",
    expansion := .template [[.word "ucontrol", .word "flag", .operand 1]] }]

/-- Block constructs.  Their keyword is a parameter like the others. -/
def blocks : List Overload := [
  { mnemonic := "namespace", params := [.word "namespace", .val "name" .variable],
    description := "Prefixes every variable inside the block.", block := some .scope },
  { mnemonic := "namespace", params := [.word "namespace"],
    description := "Prefixes every variable inside the block.", block := some .scope },
  { mnemonic := "&for", params := [.word "&for", .val "variable" .variable, .word "in",
      .val "lower" .number, .val "upper" .number],
    description := "Repeats the block for each integer in an inclusive range.",
    block := some .loop },
  { mnemonic := "&for", params := [.word "&for", .val "variable" .variable, .word "of",
      .rest "elements" .any],
    description := "Repeats the block for each listed value.", block := some .loop },
  { mnemonic := "&if", params := [.word "&if", .val "condition" .any],
    description := "Includes the block only if the condition holds.", block := some .conditional },
  { mnemonic := "\x7d", params := [.word "\x7d"],
    description := "Closes the innermost block.", block := some .close }]

/-- The whole instruction set. -/
def table : List Overload :=
  memory ++ drawing ++ text ++ buildings ++ values ++ flow ++ units ++ world ++ extended ++ blocks

end Mlog.Instruction
