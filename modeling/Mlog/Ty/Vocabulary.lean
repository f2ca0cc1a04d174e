/-!
# The words of the game

Names that the game gives to teams, items, liquids, units, blocks and sensed properties, and the
keywords that some instructions take.  The lists are data: an argument type recognises a token when
the token is one of its words.
-/
set_option autoImplicit false

namespace Mlog.Vocabulary

/-- The teams. -/
def teams : List String := [
  "@derelict", "@sharded", "@crux", "@malis", "@green", "@blue"]

/-- The items that can be carried and sensed. -/
def items : List String := [
  "@copper", "@lead", "@metaglass", "@graphite", "@sand", "@coal", "@titanium", "@thorium",
  "@scrap", "@silicon", "@plastanium", "@phase-fabric", "@surge-alloy", "@spore-pod",
  "@blast-compound", "@pyratite", "@beryllium", "@tungsten", "@oxide", "@carbide",
  "@fissile-matter", "@dormant-cyst"]

/-- The liquids. -/
def liquids : List String := [
  "@water", "@slag", "@oil", "@cryofluid", "@neoplasm", "@arkycite", "@gallium", "@ozone",
  "@hydrogen", "@nitrogen", "@cyanogen"]

/-- The kinds of unit. -/
def units : List String := [
  "@dagger", "@mace", "@fortress", "@scepter", "@reign", "@nova", "@pulsar", "@quasar", "@vela",
  "@corvus", "@crawler", "@atrax", "@spiroct", "@arkyid", "@toxopid", "@flare", "@horizon",
  "@zenith", "@antumbra", "@eclipse", "@mono", "@poly", "@mega", "@quad", "@oct", "@risso",
  "@minke", "@bryde", "@sei", "@omura", "@retusa", "@oxynoe", "@cyerce", "@aegires", "@navanax",
  "@alpha", "@beta", "@gamma", "@stell", "@locus", "@precept", "@vanquish", "@conquer", "@merui",
  "@cleroi", "@anthicus", "@tecta", "@collaris", "@elude", "@avert", "@obviate", "@quell",
  "@disrupt", "@evoke", "@incite", "@emanate"]

/-- Blocks listed by name; every other block is recognised by the hyphen in its name. -/
def plainBlocks : List String := [
  "@conveyor", "@junction", "@router", "@sorter", "@distributor", "@overflow-gate", "@duo",
  "@scatter", "@scorch", "@hail", "@wave", "@lancer", "@arc", "@parallax", "@swarmer", "@salvo",
  "@segment", "@tsunami", "@fuse", "@ripple", "@cyclone", "@foreshadow", "@spectre", "@meltdown",
  "@container", "@vault", "@unloader", "@message", "@switch", "@memory-cell", "@air", "@stone",
  "@grass", "@sand-floor", "@water-floor", "@thruster", "@battery", "@diode", "@node",
  "@illuminator"]

/-- The properties of a building or unit that can be sensed. -/
def properties : List String := [
  "@totalItems", "@firstItem", "@totalLiquids", "@totalPower", "@itemCapacity", "@liquidCapacity",
  "@powerCapacity", "@powerNetStored", "@powerNetCapacity", "@powerNetIn", "@powerNetOut", "@ammo",
  "@totalAmmo", "@ammoCapacity", "@health", "@maxHealth", "@heat", "@shield", "@armor",
  "@efficiency", "@progress", "@timescale", "@rotation", "@x", "@y", "@shootX", "@shootY", "@size",
  "@dead", "@range", "@shooting", "@boosting", "@mineX", "@mineY", "@mining", "@speed", "@team",
  "@type", "@flag", "@controlled", "@controller", "@name", "@payloadCount", "@payloadType",
  "@enabled", "@config", "@color"]

/-- Values that the processor provides as numbers. -/
def numericConstants : List String := [
  "@counter", "@time", "@tick", "@second", "@minute", "@waveNumber", "@waveTime", "@mapw", "@maph",
  "@links", "@ipt", "@thisx", "@thisy", "@server", "@client", "@ctrlProcessor", "@ctrlPlayer",
  "@ctrlCommand"]

/-- The words that a linked building's name is made of, before its number. -/
def buildingKinds : List String := [
  "cell", "bank", "message", "switch", "display", "processor", "sorter", "container", "vault",
  "turret", "conveyor", "node", "battery", "reactor", "door", "unloader", "illuminator", "duo",
  "lancer", "ripple", "foreshadow", "salvo", "core"]

/-- The comparisons of a jump. -/
def tests : List String := [
  "equal", "notEqual", "lessThan", "lessThanEq", "greaterThan", "greaterThanEq", "strictEqual",
  "always"]

/-- The operations on two operands. -/
def binaryOperations : List String := [
  "add", "sub", "mul", "div", "idiv", "mod", "emod", "pow", "equal", "notEqual", "land", "lessThan",
  "lessThanEq", "greaterThan", "greaterThanEq", "strictEqual", "shl", "shr", "ushr", "or", "and",
  "xor", "max", "min", "angle", "angleDiff", "len", "noise"]

/-- The operations on one operand. -/
def unaryOperations : List String := [
  "not", "abs", "sign", "log", "logn", "log10", "floor", "ceil", "round", "sqrt", "rand", "sin",
  "cos", "tan", "asin", "acos", "atan"]

/-- What a radar looks for. -/
def targetClasses : List String := [
  "any", "enemy", "ally", "player", "attacker", "flying", "boss", "ground"]

/-- What a radar sorts by. -/
def sortCriteria : List String := [
  "distance", "health", "shield", "armor", "maxHealth"]

/-- The groups of buildings that can be located. -/
def buildingGroups : List String := [
  "core", "storage", "generator", "turret", "factory", "repair", "battery", "reactor", "drill",
  "shield"]

/-- The game rules that a world processor can set. -/
def rules : List String := [
  "currentWaveTime", "waveTimer", "waves", "wave", "waveSpacing", "waveSending", "attackMode",
  "enemyCoreBuildRadius", "dropZoneRadius", "unitCap", "mapArea", "lighting", "ambientLight",
  "solarMultiplier", "buildSpeed", "unitHealth", "unitBuildSpeed", "unitCost", "unitDamage",
  "blockHealth", "blockDamage", "rtsMinWeight", "rtsMinSquad"]

end Mlog.Vocabulary
